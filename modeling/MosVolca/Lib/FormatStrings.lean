import MosVolca.Lib.Print

/-!
# Format strings

What a format string says: literal characters and directives `%[-][0][width][l]conv`, where each
part is taken if it can be, and perhaps a directive that the end of the string cuts off.

## Main definitions

* `MosVolca.Opening`, `MosVolca.Piece` — a directive up to its conversion, and a piece of a format.
* `MosVolca.Format` — the pieces of a string.
* `MosVolca.render` — what the pieces stand for, with their arguments.
* `MosVolca.Supplies` — there are arguments for all directives.

## Main results

* `MosVolca.exists_format` — every string is a format.
* `MosVolca.vprintfmt_renders_iff` — when `vprintfmt` prints what the format stands for.
-/

namespace MosVolca

/-! ## The grammar -/

/-- A decimal digit. -/
def isDigit (c : BitVec 8) : Prop := 0x30 ≤ c.toNat ∧ c.toNat ≤ 0x39

instance (c : BitVec 8) : Decidable (isDigit c) := inferInstanceAs (Decidable (_ ∧ _))

/-- A part of a directive that may be left out. -/
def flagText (present : Bool) (c : BitVec 8) : Chunk := if present then [c] else []

/-- A directive up to its conversion. -/
structure Opening where
  ladjust : Bool
  zero : Bool
  width : Chunk
  long : Bool

/-- The parts after the `%`. -/
def Opening.parts (o : Opening) : Chunk :=
  flagText o.ladjust 0x2d ++ (flagText o.zero 0x30 ++ (o.width ++ flagText o.long 0x6c))

/-- The width is a number that does not start with a zero. -/
def Opening.Ok (o : Opening) : Prop := (∀ c ∈ o.width, isDigit c) ∧ o.width.head? ≠ some 0x30

/-- The character does not belong to a part of the directive that could come next. -/
def Opening.Stops (o : Opening) (c : BitVec 8) : Prop :=
  o.long = false → c ≠ 0x6c ∧ (o.width ≠ [] → ¬isDigit c) ∧
    (o.width = [] → (isDigit c → c = 0x30) ∧
      (o.zero = false → c ≠ 0x30 ∧ (o.ladjust = false → c ≠ 0x2d)))

/-- A number in decimal, after the digits of `n`. -/
def decimalFrom (n : ℕ) (t : Chunk) : ℕ := t.foldl (fun n c => n * 10 + (c.toNat - 0x30)) n

/-- The flags of `vprintfmt`. -/
def Opening.flags (o : Opening) : Flags where
  ladjust := o.ladjust
  padc := if o.zero then 0x30 else 0x20
  width := decimalFrom 0 o.width

/-- A piece of a format string. -/
inductive Piece
  | literal (c : BitVec 8)
  | directive (o : Opening) (c : BitVec 8)
  | cut (o : Opening)

/-- The pieces of a format string. -/
inductive Format : Chunk → List Piece → Prop
  | nil : Format [] []
  | literal {c s ps} (hc : c ≠ 0x25) (h : Format s ps) : Format (c :: s) (.literal c :: ps)
  | directive {o c s ps} (ho : Opening.Ok o) (hc : o.Stops c) (h : Format s ps) :
      Format (0x25 :: (o.parts ++ c :: s)) (.directive o c :: ps)
  | cut {o} (ho : Opening.Ok o) : Format (0x25 :: o.parts) [.cut o]

/-! ## What a format stands for -/

/-- A text in a field with blanks. -/
def field (length : ℕ) (ladjust : Bool) (t : Chunk) : Chunk :=
  if ladjust then t ++ List.replicate (length - t.length) 0x20
  else List.replicate (length - t.length) 0x20 ++ t

/-- What a conversion makes of an argument, where `strs` gives the strings. -/
def rendering (strs : Word → Chunk) (f : Flags) (c : BitVec 8) (arg : Word) : Chunk :=
  match conversion c with
  | .number base true upcase => layout (decide (arg.toInt < 0)) f.width f.ladjust f.padc
      (Numeral.numeral base upcase arg.toInt.natAbs)
  | .number base false upcase =>
      layout false f.width f.ladjust f.padc (Numeral.numeral base upcase arg.toNat)
  | .char => field f.width f.ladjust [arg.setWidth 8]
  | .string => field f.width f.ladjust (strs arg)
  | .other => [c]

/-- The conversion takes an argument. -/
def takesArg (c : BitVec 8) : Bool :=
  match conversion c with
  | .other => false
  | _ => true

/-- What the pieces stand for: a character that is no conversion stands for itself, and a directive
that is cut off for nothing. -/
def render (strs : Word → Chunk) : List Piece → List Word → Chunk
  | [], _ => []
  | .literal c :: ps, args => c :: render strs ps args
  | .directive o c :: ps, args =>
    if takesArg c then rendering strs o.flags c (args.headD 0) ++ render strs ps args.tail
    else c :: render strs ps args
  | .cut _ :: ps, args => render strs ps args

/-- The string at an address. -/
def PointsTo (mem : ℕ → BitVec 8) (a : Word) (t : Chunk) : Prop :=
  CString.StrLen (fun i => mem (a.toNat + i)) t.length ∧
    CString.bytes (fun i => mem (a.toNat + i)) t.length = t

/-- There is an argument for each conversion, which is a string where it has to be. -/
def Supplies (mem : ℕ → BitVec 8) (strs : Word → Chunk) : List Piece → List Word → Prop
  | [], _ => True
  | .literal _ :: ps, args => Supplies mem strs ps args
  | .directive _ c :: ps, args =>
    if takesArg c then args ≠ [] ∧
      (conversion c = .string → PointsTo mem (args.headD 0) (strs (args.headD 0))) ∧
      Supplies mem strs ps args.tail
    else Supplies mem strs ps args
  | .cut _ :: ps, args => Supplies mem strs ps args

/-- The width of a piece is an `int`. -/
def Piece.WidthFits : Piece → Prop
  | .literal _ => True
  | .directive o _ => o.flags.width < 2 ^ 31
  | .cut o => o.flags.width < 2 ^ 31

/-- If a piece prints a number, the size of the array for it is an `int`. -/
def Piece.ArrayFits : Piece → Prop
  | .directive o c => ∀ base signed upcase, conversion c = .number base signed upcase →
      o.flags.width + 70 < 2 ^ 31
  | _ => True

/-! ## Every string is a format -/

variable {s t w : Chunk} {c : BitVec 8} {i n : ℕ} {b : Bool} {o : Opening} {ps : List Piece}
  {mem : ℕ → BitVec 8} {strs : Word → Chunk} {args : List Word} {fuel turns : ℕ}

lemma exists_flag (hc : c ≠ 0) (t : Chunk) :
    ∃ b t', t = flagText b c ++ t' ∧ (b = false → t'.headD 0 ≠ c) := by
  by_cases h : t.headD 0 = c
  · cases t with
    | nil => exact absurd h.symm hc
    | cons d t =>
      obtain rfl : d = c := h
      exact ⟨true, t, rfl, fun h => nomatch h⟩
  · exact ⟨false, t, rfl, fun _ => h⟩

/-- Every text is a width and what comes behind it. -/
lemma exists_width (t : Chunk) : ∃ w t', t = w ++ t' ∧ (∀ c ∈ w, isDigit c) ∧
    w.head? ≠ some 0x30 ∧ (w ≠ [] → ¬isDigit (t'.headD 0)) ∧
    (w = [] → isDigit (t'.headD 0) → t'.headD 0 = 0x30) := by
  by_cases h : t.headD 0 = 0x30
  · exact ⟨[], t, rfl, by simp, by simp, fun h => absurd rfl h, fun _ _ => h⟩
  · have hstop : ¬isDigit ((t.dropWhile fun c => decide (isDigit c)).headD 0) := by
      cases hd : t.dropWhile fun c => decide (isDigit c) with
      | nil => decide
      | cons d t' =>
        have := List.head_dropWhile_not (fun c => decide (isDigit c)) (by rw [hd]; simp)
        simpa [hd] using this
    refine ⟨t.takeWhile fun c => decide (isDigit c), t.dropWhile fun c => decide (isDigit c),
      List.takeWhile_append_dropWhile.symm, ?_, ?_, fun _ => hstop,
      fun _ hdigit => absurd hdigit hstop⟩
    · intro c hc
      simpa using List.mem_takeWhile_imp hc
    · cases t with
      | nil => simp
      | cons d t =>
        intro hhead
        rw [List.takeWhile_cons] at hhead
        split at hhead
        · exact h (Option.some.inj hhead)
        · cases hhead

/-- The parts of a directive at the beginning of a text. -/
lemma exists_opening (t : Chunk) :
    ∃ o t', t = Opening.parts o ++ t' ∧ o.Ok ∧ o.Stops (t'.headD 0) := by
  obtain ⟨ladjust, t1, rfl, h1⟩ := exists_flag (c := 0x2d) (by decide) t
  obtain ⟨zero, t2, rfl, h2⟩ := exists_flag (c := 0x30) (by decide) t1
  obtain ⟨w, t3, rfl, hw, hw0, h3, h3'⟩ := exists_width t2
  obtain ⟨long, t4, rfl, h4⟩ := exists_flag (c := 0x6c) (by decide) t3
  refine ⟨⟨ladjust, zero, w, long⟩, t4, by simp [Opening.parts], ⟨hw, hw0⟩, ?_⟩
  rintro (rfl : long = false)
  refine ⟨h4 rfl, h3, ?_⟩
  rintro (rfl : w = [])
  refine ⟨h3' rfl, ?_⟩
  rintro (rfl : zero = false)
  refine ⟨h2 rfl, ?_⟩
  rintro (rfl : ladjust = false)
  exact h1 rfl

/-- **Every string is a format.** -/
theorem exists_format (s : Chunk) : ∃ ps, Format s ps := by
  obtain ⟨n, hn⟩ : ∃ n, s.length ≤ n := ⟨_, le_rfl⟩
  induction n generalizing s with
  | zero =>
    obtain rfl := List.length_eq_zero_iff.mp (Nat.le_zero.mp hn)
    exact ⟨[], .nil⟩
  | succ n ih =>
    cases s with
    | nil => exact ⟨[], .nil⟩
    | cons c t =>
      by_cases hc : c = 0x25
      · subst hc
        obtain ⟨o, t', rfl, ho, hstop⟩ := exists_opening t
        cases t' with
        | nil => exact ⟨[.cut o], by simpa using Format.cut ho⟩
        | cons d s =>
          obtain ⟨ps, hps⟩ := ih s (by simp at hn; omega)
          exact ⟨.directive o d :: ps, .directive ho hstop hps⟩
      · obtain ⟨ps, hps⟩ := ih t (by simpa using hn)
        exact ⟨.literal c :: ps, .literal hc hps⟩

/-! ## Scanning -/

/-- The text `t` is what is left of the string from index `i` on. -/
def Rest (s : Chunk) (i : ℕ) (t : Chunk) : Prop := i ≤ s.length ∧ s.drop i = t

lemma Rest.length (h : Rest s i t) : i + t.length = s.length := by
  rw [← h.2, List.length_drop]
  have := h.1
  omega

lemma Rest.append (h : Rest s i (w ++ t)) : Rest s (i + w.length) t := by
  have hlen := h.length
  rw [List.length_append] at hlen
  refine ⟨by omega, ?_⟩
  rw [← List.drop_drop, h.2, List.drop_left]

lemma Rest.tail (h : Rest s i (c :: t)) : Rest s (i + 1) t := Rest.append (w := [c]) h

/-- The character at the index, or the null byte at the end. -/
lemma Rest.fmtAt (h : Rest s i t) : fmtAt s i = some (t.headD 0) := by
  have hlen := h.length
  cases t with
  | nil =>
    obtain rfl : i = s.length := by simpa using hlen
    simp [MosVolca.fmtAt]
  | cons c t =>
    have hi : i < s.length := by
      rw [List.length_cons] at hlen
      omega
    have hget : s[i]? = some c := by
      have hdrop : (s.drop i)[0]? = s[i + 0]? := List.getElem?_drop
      rw [h.2] at hdrop
      simpa using hdrop.symm
    rw [MosVolca.fmtAt, List.getElem?_append_left hi, hget, List.headD_cons]

lemma scanFlag_eq (h : Rest s i (flagText b c ++ t)) (hstop : b = false → t.headD 0 ≠ c) :
    scanFlag s c i = some (b, i + (flagText b c).length) := by
  rw [scanFlag, h.fmtAt]
  cases b with
  | true => simp [flagText]
  | false => simpa [flagText] using hstop rfl

lemma decimalFrom_cons (n : ℕ) (c : BitVec 8) (t : Chunk) :
    decimalFrom n (c :: t) = decimalFrom (n * 10 + (c.toNat - 0x30)) t := by
  rw [decimalFrom, List.foldl_cons, decimalFrom]

lemma le_decimalFrom (n : ℕ) (t : Chunk) : n ≤ decimalFrom n t := by
  induction t generalizing n with
  | nil => exact le_rfl
  | cons c t ih => exact le_trans (by omega) (ih (n * 10 + (c.toNat - 0x30)))

/-- The digits are read up to the first other character. -/
lemma scanDigits_eq (h : Rest s i (w ++ t)) (hw : ∀ c ∈ w, isDigit c)
    (hstop : ¬isDigit (t.headD 0)) (hfit : decimalFrom n w < 2 ^ 31) (hfuel : w.length < fuel) :
    scanDigits s fuel n i = some (decimalFrom n w, i + w.length) := by
  induction w generalizing fuel i n with
  | nil =>
    obtain ⟨fuel, rfl⟩ : ∃ f, fuel = f + 1 := ⟨fuel - 1, by simp at hfuel; omega⟩
    rw [scanDigits, h.fmtAt, Option.bind_eq_bind, Option.bind_some]
    exact if_neg hstop
  | cons d w ih =>
    obtain ⟨fuel, rfl⟩ : ∃ f, fuel = f + 1 := ⟨fuel - 1, by simp at hfuel; omega⟩
    have hd : 0x30 ≤ d.toNat ∧ d.toNat ≤ 0x39 := hw d List.mem_cons_self
    have hnext : n * 10 + (d.toNat - 0x30) < 2 ^ 31 := (le_decimalFrom _ w).trans_lt hfit
    rw [scanDigits, h.fmtAt, Option.bind_eq_bind, Option.bind_some, List.cons_append,
      List.headD_cons, if_pos hd]
    dsimp only
    rw [if_pos hnext, ih h.tail (fun c hc => hw c (List.mem_cons_of_mem d hc)) hfit
      (by simpa using hfuel), List.length_cons, Nat.add_right_comm, Nat.add_assoc]
    rfl

/-- The width is read up to the first character that is no digit. -/
lemma scanWidth_eq (h : Rest s i (w ++ t)) (hw : ∀ c ∈ w, isDigit c) (hw0 : w.head? ≠ some 0x30)
    (hstop : w ≠ [] → ¬isDigit (t.headD 0))
    (hstop' : w = [] → isDigit (t.headD 0) → t.headD 0 = 0x30) (hfit : decimalFrom 0 w < 2 ^ 31) :
    scanWidth s i = some (decimalFrom 0 w, i + w.length) := by
  rw [scanWidth, h.fmtAt, Option.bind_eq_bind, Option.bind_some]
  cases w with
  | nil =>
    rw [List.nil_append, if_neg]
    · rfl
    · rintro ⟨hlt, hle⟩
      rw [hstop' rfl ⟨hlt.le, hle⟩] at hlt
      exact absurd hlt (by decide)
  | cons d w =>
    have hd : 0x30 ≤ d.toNat ∧ d.toNat ≤ 0x39 := hw d List.mem_cons_self
    have hd0 : d.toNat ≠ 0x30 := fun he => hw0 (congrArg some (BitVec.eq_of_toNat_eq he))
    have hlen := h.length
    rw [decimalFrom_cons, Nat.zero_mul, Nat.zero_add] at hfit ⊢
    rw [List.cons_append, List.headD_cons, if_pos ⟨by omega, hd.2⟩, scanDigits_eq h.tail
      (fun c hc => hw c (List.mem_cons_of_mem d hc)) (hstop (by simp)) hfit
      (by simp at hlen; omega), List.length_cons, Nat.add_assoc, Nat.add_comm 1]

/-- A part that is left out is not at the beginning of what comes instead. -/
lemma headD_parts (hstop : o.Stops (t.headD 0)) (ho : o.Ok) :
    (o.ladjust = false → (flagText o.zero 0x30 ++ (o.width ++ (flagText o.long 0x6c ++ t))).headD 0
      ≠ 0x2d) ∧
    (o.zero = false → (o.width ++ (flagText o.long 0x6c ++ t)).headD 0 ≠ 0x30) ∧
    (o.width ≠ [] → ¬isDigit ((flagText o.long 0x6c ++ t).headD 0)) ∧
    (o.width = [] → isDigit ((flagText o.long 0x6c ++ t).headD 0) →
      (flagText o.long 0x6c ++ t).headD 0 = 0x30) ∧
    (o.long = false → t.headD 0 ≠ 0x6c) := by
  obtain ⟨ladjust, zero, width, long⟩ := o
  obtain ⟨hw, hw0⟩ := ho
  dsimp only [Opening.Stops] at hstop hw hw0 ⊢
  have hdigit : ∀ d w', width = d :: w' → isDigit d ∧ d ≠ 0x30 := by
    rintro d w' rfl
    exact ⟨hw d List.mem_cons_self, fun hd => hw0 (congrArg some hd)⟩
  have hminus : ¬isDigit 0x2d := by decide
  have hell : ¬isDigit 0x6c := by decide
  refine ⟨?_, ?_, ?_, ?_, fun h => (hstop h).1⟩
  · rintro rfl
    cases zero with
    | true => simp [flagText]
    | false =>
      cases width with
      | cons d w' =>
        intro (hd : d = 0x2d)
        exact hminus (hd ▸ (hdigit d w' rfl).1)
      | nil =>
        cases long with
        | true => simp [flagText]
        | false => exact (((hstop rfl).2.2 rfl).2 rfl).2 rfl
  · rintro rfl
    cases width with
    | cons d w' => exact (hdigit d w' rfl).2
    | nil =>
      cases long with
      | true => simp [flagText]
      | false => exact (((hstop rfl).2.2 rfl).2 rfl).1
  · intro hne
    cases long with
    | true => exact hell
    | false => exact (hstop rfl).2.1 hne
  · intro hnil
    cases long with
    | true => exact fun h => absurd h hell
    | false => exact ((hstop rfl).2.2 hnil).1

/-- The flags are read up to the first character that is none. -/
lemma scanFlags_eq (h : Rest s i (o.parts ++ t)) (ho : o.Ok) (hstop : o.Stops (t.headD 0))
    (hfit : o.flags.width < 2 ^ 31) : scanFlags s i = some (o.flags, i + o.parts.length) := by
  obtain ⟨h1, h2, h3, h3', h4⟩ := headD_parts hstop ho
  have hr : Rest s i (flagText o.ladjust 0x2d ++ (flagText o.zero 0x30 ++ (o.width ++
      (flagText o.long 0x6c ++ t)))) := by
    simpa [Opening.parts] using h
  unfold scanFlags
  simp only [Option.bind_eq_bind]
  rw [scanFlag_eq hr h1, Option.bind_some, scanFlag_eq hr.append h2, Option.bind_some,
    scanWidth_eq hr.append.append ho.1 ho.2 h3 h3' hfit, Option.bind_some,
    scanFlag_eq hr.append.append.append h4, Option.bind_some]
  simp only [Opening.parts, List.length_append, Nat.add_assoc]
  rfl

/-! ## Conversions -/

lemma one_lt_base {base : ℕ} {signed upcase : Bool}
    (h : conversion c = .number base signed upcase) : 1 < base := by
  unfold conversion at h
  split_ifs at h <;> cases h <;> decide

lemma countBytes_eq {p : ℕ → BitVec 8} {m : ℕ} (h : CString.StrLen p m) (hi : i ≤ m)
    (hfuel : m - i < fuel) : countBytes p fuel i = some m := by
  induction fuel generalizing i with
  | zero => omega
  | succ fuel ih =>
    rw [countBytes]
    rcases hi.eq_or_lt with rfl | hlt
    · rw [if_neg (not_not.mpr h.1)]
    · rw [if_pos (h.2 i hlt), ih hlt (by omega)]

lemma flatten_blankChunks : (blankChunks n).flatten = List.replicate n 0x20 := by
  induction n with
  | zero => rfl
  | succ n ih =>
    rw [blankChunks, List.replicate_succ, List.flatten_cons, List.replicate_succ]
    exact congrArg _ ih

lemma flatten_printChar {length : ℕ} {ladjust : Bool} :
    (printChar c length ladjust).flatten = field length ladjust [c] := by
  have hlen : (if length < 1 then 1 else length) - 1 = length - 1 := by
    split <;> omega
  unfold printChar field
  dsimp only
  rw [hlen]
  cases ladjust <;> simp [flatten_blankChunks]

/-- `print_str` puts out the string and its padding. -/
lemma flatten_printStr {p : ℕ → BitVec 8} (length : ℕ) (ladjust : Bool)
    (h : CString.StrLen p t.length) (ht : CString.bytes p t.length = t) (hfuel : t.length < fuel) :
    ∃ chunks, printStr fuel p length ladjust = some chunks ∧
      chunks.flatten = field length ladjust t := by
  have hlen : (if length < t.length then t.length else length) - t.length = length - t.length := by
    split <;> omega
  unfold printStr field
  rw [countBytes_eq h (Nat.zero_le _) (by omega), Option.bind_eq_bind, Option.bind_some]
  dsimp only
  rw [hlen, ht]
  cases ladjust with
  | true => exact ⟨_, rfl, by simp [flatten_blankChunks]⟩
  | false => exact ⟨_, rfl, by simp [flatten_blankChunks]⟩

/-- The number that is printed is the value of the argument. -/
lemma magnitude_eq (num : Word) :
    (if num.msb then -num else num).toNat = num.toInt.natAbs ∧
      num.msb = decide (num.toInt < 0) := by
  cases hmsb : num.msb with
  | true =>
    have hneg := toInt_eq_neg num hmsb
    have hpos : 0 < (-num).toNat := by
      have hge := BitVec.msb_eq_true_iff_two_mul_ge.mp hmsb
      rw [BitVec.toNat_neg, Nat.mod_eq_of_lt (by omega)]
      have := num.isLt
      omega
    refine ⟨by rw [if_pos rfl, hneg]; omega, ?_⟩
    rw [eq_comm, decide_eq_true_iff]
    omega
  | false =>
    have hnn := toInt_eq_toNat_of_msb num hmsb
    refine ⟨by rw [if_neg Bool.false_ne_true, hnn]; omega, ?_⟩
    rw [eq_comm, decide_eq_false_iff_not]
    omega

/-- **A conversion prints the rendering of its argument.** -/
theorem convert_eq {f : Flags} {arg : Word} (args : List Word) (hc : takesArg c = true)
    (hfit : ∀ base signed upcase, conversion c = .number base signed upcase →
      f.width + 70 < 2 ^ 31)
    (hstr : conversion c = .string → PointsTo mem arg (strs arg))
    (hfuel : (strs arg).length < fuel) :
    ∃ chunks, convert mem fuel f c (arg :: args) = some (chunks, args) ∧
      chunks.flatten = rendering strs f c arg := by
  cases hconv : conversion c with
  | number base signed upcase =>
    obtain ⟨hmag, hmsb⟩ := magnitude_eq arg
    rw [convert_number hconv, printNum_eq (one_lt_base hconv) (BitVec.isLt _) (hfit _ _ _ hconv)]
    refine ⟨_, rfl, ?_⟩
    rw [rendering, hconv, List.flatten_singleton]
    cases signed with
    | true => rw [Bool.true_and, hmag, hmsb]
    | false => rfl
  | char =>
    refine ⟨printChar (arg.setWidth 8) f.width f.ladjust, by unfold convert; rw [hconv], ?_⟩
    rw [rendering, hconv, flatten_printChar]
  | string =>
    obtain ⟨hlen, hbytes⟩ := hstr hconv
    obtain ⟨chunks, hprint, hflat⟩ := flatten_printStr f.width f.ladjust hlen hbytes hfuel
    refine ⟨chunks, ?_, ?_⟩
    · unfold convert
      rw [hconv]
      simp only [hprint, Option.bind_eq_bind, Option.bind_some]
    · rw [rendering, hconv, hflat]
  | other =>
    rw [takesArg, hconv] at hc
    cases hc

lemma convert_other {f : Flags} (hc : takesArg c = false) :
    convert mem fuel f c args = some ([[c]], args) := by
  cases hconv : conversion c with
  | other =>
    unfold convert
    rw [hconv]
  | _ =>
    rw [takesArg, hconv] at hc
    cases hc

/-- A number whose array is too large is not printed. -/
lemma convert_eq_none {f : Flags} {base : ℕ} {signed upcase : Bool}
    (hc : conversion c = .number base signed upcase) (hw : f.width < 2 ^ 31)
    (hwide : ¬f.width + 70 < 2 ^ 31) : convert mem fuel f c args = none := by
  cases args with
  | nil =>
    unfold convert
    rw [hc]
  | cons arg args => rw [convert_number hc, printNum_eq_none hw (by omega), Option.map_none]

/-! ## The loop -/

lemma vprintfmtFrom_nil (h : Rest s i []) :
    vprintfmtFrom mem fuel s (turns + 1) i args = some [] := by
  have hlen := h.length
  rw [List.length_nil] at hlen
  rw [vprintfmtFrom, show s.length + 1 - i = 0 + 1 by omega, scanText, h.fmtAt]
  simp [h.fmtAt]

/-- A literal character is printed. -/
lemma vprintfmtFrom_literal (h : Rest s i (c :: t)) (hc : c ≠ 0x25) (hc0 : c ≠ 0) :
    vprintfmtFrom mem fuel s (turns + 1) i args =
      (vprintfmtFrom mem fuel s (turns + 1) (i + 1) args).map ([c] :: ·) := by
  have hlen := h.length
  rw [List.length_cons] at hlen
  obtain ⟨k, hk⟩ : ∃ k, s.length + 1 - (i + 1) = k := ⟨_, rfl⟩
  rw [vprintfmtFrom, vprintfmtFrom, show s.length + 1 - i = k + 1 by omega, hk, scanText, h.fmtAt]
  simp only [Option.bind_eq_bind, Option.bind_some, List.headD_cons]
  rw [if_pos ⟨hc, hc0⟩]
  cases scanText s k (i + 1) with
  | none => rfl
  | some r =>
    simp only [Option.bind_some]
    cases fmtAt s r.2 with
    | none => rfl
    | some d =>
      simp only [Option.bind_some]
      split
      · rfl
      · cases directiveAt mem fuel s r.2 args with
        | none => rfl
        | some q =>
          simp only [Option.bind_some]
          cases vprintfmtFrom mem fuel s turns q.2.2 q.2.1 <;> rfl

/-- A directive is printed, and the loop goes on after it. -/
lemma vprintfmtFrom_percent (h : Rest s i (0x25 :: t)) :
    vprintfmtFrom mem fuel s (turns + 1) i args =
      (directiveAt mem fuel s i args).bind fun q =>
        (vprintfmtFrom mem fuel s turns q.2.2 q.2.1).map (q.1 ++ ·) := by
  have hlen := h.length
  rw [List.length_cons] at hlen
  obtain ⟨k, hk⟩ : ∃ k, s.length + 1 - i = k + 1 := ⟨s.length - i, by omega⟩
  rw [vprintfmtFrom, hk, scanText, h.fmtAt]
  simp only [Option.bind_eq_bind, Option.bind_some, List.headD_cons]
  rw [if_neg fun hc => hc.1 rfl, Option.bind_some, h.fmtAt, Option.bind_some]
  rw [List.headD_cons, if_neg (show (0x25 : BitVec 8) ≠ 0 by decide)]
  cases directiveAt mem fuel s i args with
  | none => rfl
  | some q =>
    simp only [Option.bind_some]
    cases vprintfmtFrom mem fuel s turns q.2.2 q.2.1 <;> rfl

lemma directiveAt_eq (mem : ℕ → BitVec 8) (fuel : ℕ) (args : List Word)
    (h : Rest s i (0x25 :: (o.parts ++ c :: t))) (ho : o.Ok) (hc : o.Stops c)
    (hc0 : c ≠ 0) (hfit : o.flags.width < 2 ^ 31) :
    directiveAt mem fuel s i args = (convert mem fuel o.flags c args).map fun r =>
      (r.1, r.2, i + 1 + o.parts.length + 1) := by
  rw [directiveAt, scanFlags_eq h.tail ho hc hfit, Option.bind_eq_bind, Option.bind_some]
  dsimp only
  rw [h.tail.append.fmtAt, Option.bind_eq_bind, Option.bind_some, List.headD_cons, if_neg hc0]

lemma stops_zero (o : Opening) : o.Stops 0 := fun _ =>
  ⟨by decide, fun _ => by decide, fun _ => ⟨by decide, fun _ => ⟨by decide, fun _ => by decide⟩⟩⟩

/-- A directive that is cut off prints nothing, and the loop goes on at the end of the string. -/
lemma directiveAt_cut (h : Rest s i (0x25 :: o.parts)) (ho : o.Ok)
    (hfit : o.flags.width < 2 ^ 31) :
    directiveAt mem fuel s i args = some ([], args, i + 1 + o.parts.length) := by
  have htail : Rest s (i + 1) (o.parts ++ []) := by
    rw [List.append_nil]
    exact h.tail
  rw [directiveAt, scanFlags_eq htail ho (stops_zero o) hfit, Option.bind_eq_bind,
    Option.bind_some]
  dsimp only
  rw [htail.append.fmtAt, Option.bind_eq_bind, Option.bind_some, List.headD_nil, if_pos rfl,
    show i + 1 + o.parts.length - 1 + 1 = i + 1 + o.parts.length by omega]

/-- **The loop prints what the rest of the format stands for.** -/
theorem vprintfmtFrom_eq (h : Format t ps) (hr : Rest s i t) (h0 : 0 ∉ t)
    (hw : ∀ p ∈ ps, p.WidthFits) (ha : ∀ p ∈ ps, p.ArrayFits) (hsup : Supplies mem strs ps args)
    (hfuel : ∀ a ∈ args, (strs a).length < fuel) (hturns : t.length < turns) :
    ∃ chunks, vprintfmtFrom mem fuel s turns i args = some chunks ∧
      chunks.flatten = render strs ps args := by
  induction h generalizing i args turns with
  | nil =>
    obtain ⟨turns, rfl⟩ : ∃ m, turns = m + 1 := ⟨turns - 1, by simp at hturns; omega⟩
    exact ⟨[], vprintfmtFrom_nil hr, rfl⟩
  | @literal c t ps hc h ih =>
    obtain ⟨hc0, h0⟩ : 0 ≠ c ∧ 0 ∉ t := by simpa using h0
    obtain ⟨turns, rfl⟩ : ∃ m, turns = m + 1 := ⟨turns - 1, by omega⟩
    obtain ⟨chunks, hrun, hflat⟩ := ih hr.tail h0 (fun p hp => hw p (List.mem_cons_of_mem _ hp))
      (fun p hp => ha p (List.mem_cons_of_mem _ hp)) hsup hfuel
      (show _ < turns + 1 by simp at hturns; omega)
    refine ⟨[c] :: chunks, ?_, ?_⟩
    · rw [vprintfmtFrom_literal hr hc hc0.symm, hrun, Option.map_some]
    · rw [List.flatten_cons, hflat]
      rfl
  | @directive o c t ps ho hc h ih =>
    obtain ⟨turns, rfl⟩ : ∃ m, turns = m + 1 := ⟨turns - 1, by omega⟩
    have hlt : t.length < turns := by
      rw [List.length_cons, List.length_append, List.length_cons] at hturns
      omega
    simp only [List.mem_cons, List.mem_append, not_or] at h0
    obtain ⟨-, -, hc0, h0⟩ := h0
    have hrest : Rest s (i + 1 + o.parts.length + 1) t := hr.tail.append.tail
    rw [vprintfmtFrom_percent hr,
      directiveAt_eq mem fuel args hr ho hc (Ne.symm hc0) (hw _ List.mem_cons_self)]
    cases htakes : takesArg c with
    | true =>
      simp only [Supplies, htakes, if_true] at hsup
      obtain ⟨hne, hstr, hsup⟩ := hsup
      obtain ⟨arg, args, rfl⟩ := List.exists_cons_of_ne_nil hne
      obtain ⟨out, hconv, hout⟩ := convert_eq args htakes (ha _ List.mem_cons_self) hstr
        (hfuel arg List.mem_cons_self)
      rw [List.headD_cons] at hconv hout
      obtain ⟨chunks, hrun, hflat⟩ := ih hrest h0 (fun p hp => hw p (List.mem_cons_of_mem _ hp))
        (fun p hp => ha p (List.mem_cons_of_mem _ hp)) hsup
        (fun a ha => hfuel a (List.mem_cons_of_mem _ ha)) hlt
      refine ⟨out ++ chunks, ?_, ?_⟩
      · rw [hconv, Option.map_some, Option.bind_some]
        exact congrArg (Option.map (out ++ ·)) hrun
      · rw [List.flatten_append, hout, hflat, render, htakes, if_pos rfl]
        rfl
    | false =>
      simp only [Supplies, htakes] at hsup
      obtain ⟨chunks, hrun, hflat⟩ := ih hrest h0 (fun p hp => hw p (List.mem_cons_of_mem _ hp))
        (fun p hp => ha p (List.mem_cons_of_mem _ hp)) hsup hfuel hlt
      refine ⟨[[c]] ++ chunks, ?_, ?_⟩
      · rw [convert_other htakes, Option.map_some, Option.bind_some]
        exact congrArg (Option.map ([[c]] ++ ·)) hrun
      · rw [List.flatten_append, hflat, render, htakes, if_neg Bool.false_ne_true]
        rfl
  | @cut o ho =>
    obtain ⟨turns, rfl⟩ : ∃ m, turns = m + 2 := ⟨turns - 2, by simp at hturns; omega⟩
    have hend : Rest s (i + 1 + o.parts.length) [] := by
      have htail : Rest s (i + 1) (o.parts ++ []) := by
        rw [List.append_nil]
        exact hr.tail
      exact htail.append
    refine ⟨[], ?_, rfl⟩
    rw [vprintfmtFrom_percent hr, directiveAt_cut hr ho (hw _ List.mem_cons_self),
      Option.bind_some, vprintfmtFrom_nil hend]
    rfl

/-- The loop stops at a number whose array is too large. -/
lemma vprintfmtFrom_eq_none (h : Format t ps) (hr : Rest s i t) (h0 : 0 ∉ t)
    (hw : ∀ p ∈ ps, p.WidthFits) (ha : ∃ p ∈ ps, ¬p.ArrayFits) :
    vprintfmtFrom mem fuel s turns i args = none := by
  induction h generalizing i args turns with
  | nil =>
    obtain ⟨p, hp, -⟩ := ha
    cases hp
  | @literal c t ps hc h ih =>
    obtain ⟨hc0, h0⟩ : 0 ≠ c ∧ 0 ∉ t := by simpa using h0
    obtain ⟨p, hp, hpa⟩ := ha
    rcases List.mem_cons.mp hp with rfl | hp
    · exact absurd trivial hpa
    · rcases turns with _ | turns
      · rfl
      · rw [vprintfmtFrom_literal hr hc hc0.symm, ih hr.tail h0
          (fun p hp => hw p (List.mem_cons_of_mem _ hp)) ⟨p, hp, hpa⟩, Option.map_none]
  | @directive o c t ps ho hc h ih =>
    simp only [List.mem_cons, List.mem_append, not_or] at h0
    obtain ⟨-, -, hc0, h0⟩ := h0
    obtain ⟨p, hp, hpa⟩ := ha
    rcases turns with _ | turns
    · rfl
    have hfit : o.flags.width < 2 ^ 31 := hw _ List.mem_cons_self
    rw [vprintfmtFrom_percent hr, directiveAt_eq mem fuel args hr ho hc (Ne.symm hc0) hfit]
    rcases List.mem_cons.mp hp with rfl | hp
    · obtain ⟨base, signed, upcase, hconv, hwide⟩ : ∃ base signed upcase,
          conversion c = .number base signed upcase ∧ ¬o.flags.width + 70 < 2 ^ 31 := by
        simpa only [Piece.ArrayFits, not_forall, exists_prop] using hpa
      rw [convert_eq_none hconv hfit hwide]
      rfl
    · cases convert mem fuel o.flags c args with
      | none => rfl
      | some r =>
        rw [Option.map_some, Option.bind_some, ih hr.tail.append.tail h0
          (fun p hp => hw p (List.mem_cons_of_mem _ hp)) ⟨p, hp, hpa⟩, Option.map_none]
  | @cut o ho =>
    obtain ⟨p, hp, hpa⟩ := ha
    obtain rfl := List.mem_singleton.mp hp
    exact absurd trivial hpa

/-- **When a format is printed.** Every string is a format. If its widths are of type `int` and
there are arguments for it, then `vprintfmt` ends and prints what the format stands for, if and only
if no number is so wide that the size of its array is no `int`. -/
theorem vprintfmt_renders_iff (mem : ℕ → BitVec 8) (strs : Word → Chunk) (s : Chunk)
    (args : List Word) (h0 : 0 ∉ s) :
    (∃ ps, Format s ps) ∧ ∀ ps, Format s ps → (∀ p ∈ ps, p.WidthFits) →
      Supplies mem strs ps args →
      ((∃ n, ∀ fuel ≥ n, ∃ chunks, vprintfmt mem fuel s args = some chunks ∧
        chunks.flatten = render strs ps args) ↔ ∀ p ∈ ps, p.ArrayFits) := by
  refine ⟨exists_format s, fun ps h hw hsup => ?_⟩
  have hr : Rest s 0 s := ⟨Nat.zero_le _, List.drop_zero⟩
  constructor
  · rintro ⟨n, hn⟩
    by_contra ha
    push Not at ha
    obtain ⟨chunks, hrun, -⟩ := hn n le_rfl
    rw [vprintfmt, vprintfmtFrom_eq_none h hr h0 hw ha] at hrun
    cases hrun
  · intro ha
    refine ⟨s.length + 1 + (args.map fun a => (strs a).length).sum, fun fuel hfuel => ?_⟩
    refine vprintfmtFrom_eq h hr h0 hw ha hsup (fun a harg => ?_) (by omega)
    have := List.single_le_sum (fun _ _ => Nat.zero_le _) _
      (List.mem_map_of_mem (f := fun a => (strs a).length) harg)
    omega

/-- The opening of `%2147483647`. -/
def widest : Opening where
  ladjust := false
  zero := false
  width := [0x32, 0x31, 0x34, 0x37, 0x34, 0x38, 0x33, 0x36, 0x34, 0x37]
  long := false

/-- The format `%2147483647d`. -/
def widestFormat : Chunk := 0x25 :: (widest.parts ++ [0x64])

lemma format_widest : Format widestFormat [.directive widest 0x64] := by
  refine .directive ⟨by decide, by decide⟩ (fun _ => ?_) .nil
  exact ⟨by decide, fun _ => by decide, fun h => absurd h (by decide)⟩

/-- The format `%2147483647d` has a width of type `int` and an argument, and nothing is printed. -/
theorem widest_not_printed : Format widestFormat [.directive widest 0x64] ∧
    (∀ p ∈ [Piece.directive widest 0x64], p.WidthFits) ∧
    Supplies (fun _ => 0) (fun _ => []) [.directive widest 0x64] [0] ∧
    ∀ fuel, vprintfmt (fun _ => 0) fuel widestFormat [0] = none := by
  have hfit : ∀ p ∈ [Piece.directive widest 0x64], p.WidthFits := by
    intro p hp
    obtain rfl := List.mem_singleton.mp hp
    show decimalFrom 0 widest.width < 2 ^ 31
    decide
  refine ⟨format_widest, hfit, by simp [Supplies, takesArg, conversion], fun fuel => ?_⟩
  refine vprintfmtFrom_eq_none format_widest ⟨Nat.zero_le _, List.drop_zero⟩ (by decide) hfit
    ⟨_, List.mem_cons_self, fun h => ?_⟩
  have hwide : decimalFrom 0 widest.width + 70 < 2 ^ 31 := h 10 true false rfl
  exact absurd hwide (by decide)

/-- An opening without parts. -/
def plain : Opening := ⟨false, false, [], false⟩

lemma plain_ok : plain.Ok := ⟨by decide, by decide⟩

/-- The pieces of `5%d%`, where the second directive is cut off. -/
lemma format_five : Format [0x35, 0x25, 0x64, 0x25]
    [.literal 0x35, .directive plain 0x64, .cut plain] := by
  have hcut : Format [0x25] [.cut plain] := .cut plain_ok
  have hstop : plain.Stops 0x64 := fun _ =>
    ⟨by decide, fun h => absurd rfl h,
      fun _ => ⟨by decide, fun _ => ⟨by decide, fun _ => by decide⟩⟩⟩
  have hdir : Format [0x25, 0x64, 0x25] [.directive plain 0x64, .cut plain] :=
    .directive plain_ok hstop hcut
  exact .literal (by decide) hdir

/-- A digit, a number and a `%` at the end of the format. -/
theorem vprintfmt_renders_five : ∃ n, ∀ fuel ≥ n, ∃ chunks,
    vprintfmt (fun _ => 0) fuel [0x35, 0x25, 0x64, 0x25] [5] = some chunks ∧ chunks.flatten =
      render (fun _ => []) [.literal 0x35, .directive plain 0x64, .cut plain] [5] := by
  have hfit : plain.flags.width + 70 < 2 ^ 31 := by decide
  have hpieces : ∀ p ∈ [Piece.literal 0x35, .directive plain 0x64, .cut plain],
      p.WidthFits ∧ p.ArrayFits := by
    intro p hp
    simp only [List.mem_cons, List.not_mem_nil, or_false] at hp
    rcases hp with rfl | rfl | rfl
    · exact ⟨trivial, trivial⟩
    · exact ⟨(Nat.le_add_right _ 70).trans_lt hfit, fun _ _ _ _ => hfit⟩
    · exact ⟨(Nat.le_add_right _ 70).trans_lt hfit, trivial⟩
  exact ((vprintfmt_renders_iff (fun _ => 0) (fun _ => []) [0x35, 0x25, 0x64, 0x25] [5]
    (by decide)).2 _ format_five (fun p hp => (hpieces p hp).1)
    (by simp [Supplies, takesArg, conversion])).mpr fun p hp => (hpieces p hp).2

end MosVolca
