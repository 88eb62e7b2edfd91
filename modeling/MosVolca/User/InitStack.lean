import Mathlib.Data.List.GetD
import MosVolca.Include.Error
import MosVolca.Include.Mmu
import MosVolca.Library.ByteWords

/-!
# The stack of a spawned program

`init_stack` of `user/lib/spawn.c` builds the first stack page of a child at `UTEMP`: the strings of
the arguments at the end of the page, the array `args` of pointers to them below, and below that
`argc` and the pointer to `args`. The size check adds the lengths in 32 bits.

## Main definitions

* `MosVolca.ArgVec` — the arguments.
* `MosVolca.initStack` — the function.
* `MosVolca.StackLayout` — a page from which the arguments can be read back.

## Main results

* `MosVolca.initStack_decodes_iff` — when an accepted argument vector can be read back.
* `MosVolca.args_not_terminated` — the array of pointers does not end with a null pointer.
-/

namespace MosVolca

open ByteWords

/-- What `argv` points to: an array of pointers with a null pointer at the end, and the strings that
they point to. The array and each string lie in the address space. -/
structure ArgVec where
  strings : List (List (BitVec 8))
  zero_notMem : ∀ s ∈ strings, (0 : BitVec 8) ∉ s
  length_lt : ∀ s ∈ strings, s.length < 2 ^ 32
  argc_lt : strings.length < 2 ^ 30

/-- A page, as words. -/
abbrev Page := ℕ → Word

/-- What the three system calls return. -/
structure StackCalls where
  alloc : Word
  map : Word
  unmap : Word

/-! ## The function -/

/-- The first loop, with `argc` and `tot`. -/
def countArgs : List (List (BitVec 8)) → Word × Word → Word × Word
  | [], acc => acc
  | s :: rest, (argc, tot) => countArgs rest (argc + 1, tot + (BitVec.ofNat 32 s.length + 1))

/-- `ROUND(a, 4)`. -/
def round4 (a : Word) : Word := (a + 3) &&& ~~~3#32

/-- The address is in the page at `UTEMP`. -/
def inTemp (va : Word) : Bool := decide ((va - utemp).toNat < by2pg)

/-- A byte is stored: `none` if it is outside the page. -/
def storeByte (m : Page) (va : Word) (c : BitVec 8) : Option Page :=
  if inTemp va then some (set m (va - utemp).toNat c) else none

/-- A word is stored. -/
def storeWord (m : Page) (va w : Word) : Option Page :=
  if inTemp va then some (Function.update m ((va - utemp).toNat / 4) w) else none

/-- The inner loop over the bytes that are left of a string, with `ctemp`, and the null byte. -/
def copyString : List (BitVec 8) → Page × Word → Option (Page × Word)
  | [], (m, ctemp) => do
    let m ← storeByte m ctemp 0
    pure (m, ctemp + 1)
  | c :: s, (m, ctemp) => do
    let m ← storeByte m ctemp c
    copyString s (m, ctemp + 1)

/-- The loop that copies the strings. -/
def copyStrings : List (List (BitVec 8)) → Page × Word → Option (Page × Word)
  | [], acc => some acc
  | s :: rest, acc => do
    let acc ← copyString s acc
    copyStrings rest acc

/-- The loop that stores the pointers, from index `i` on. -/
def storeArgs (args : Word) : List (List (BitVec 8)) → ℕ → Page × Word → Option (Page × Word)
  | [], _, acc => some acc
  | s :: rest, i, (m, ctemp) => do
    let m ← storeWord m (args + 4 * BitVec.ofNat 32 i) ctemp
    storeArgs args rest (i + 1) (m, ctemp + (BitVec.ofNat 32 s.length + 1))

/-- The address of a place of the page at `UTEMP`, for the child. -/
def toChild (va : Word) : Word := ustacktop - utemp - BitVec.ofNat 32 by2pg + va

namespace ArgVec

variable (argv : ArgVec)

/-- `argc`. -/
def argc : Word := (countArgs argv.strings (0, 0)).1

/-- `tot`. -/
def tot : Word := (countArgs argv.strings (0, 0)).2

/-- The size check passes. -/
def Accepted : Prop := round4 argv.tot + 4 * (argv.argc + 3) ≤ BitVec.ofNat 32 by2pg

instance : Decidable argv.Accepted := inferInstanceAs (Decidable (_ ≤ _))

/-- `strings`. -/
def stringsAt : Word := utemp + BitVec.ofNat 32 by2pg - argv.tot

/-- `args`. -/
def argsAt : Word := utemp + BitVec.ofNat 32 by2pg - round4 argv.tot - 4 * (argv.argc + 1)

end ArgVec

/-- The page that is built, and `*init_sp`. -/
def buildStack (argv : ArgVec) : Option (Page × Word) := do
  let (m, _) ← copyStrings argv.strings (fun _ => 0, argv.stringsAt)
  let (m, ctemp) ← storeArgs argv.argsAt argv.strings 0 (m, toChild argv.stringsAt)
  -- the pointer is moved back by one byte and stored as the last one
  let m ← storeWord m (argv.argsAt + 4 * argv.argc) (ctemp - 1)
  let m ← storeWord m (argv.argsAt - 4) (toChild argv.argsAt)
  let m ← storeWord m (argv.argsAt - 8) argv.argc
  pure (m, toChild (argv.argsAt - 8))

/-- `init_stack`: what it returns, and the first page of the stack of the child with the initial
stack pointer, if the page is mapped there. `none`: it writes outside the page. -/
def initStack (calls : StackCalls) (argv : ArgVec) : Option (Word × Option (Page × Word)) :=
  if ¬ argv.Accepted then some (-eNoMem, none)
  else if calls.alloc.toInt < 0 then some (calls.alloc, none)
  else do
    let page ← buildStack argv
    if calls.map.toInt < 0 then pure (calls.map, none)
    else if calls.unmap.toInt < 0 then pure (calls.unmap, some page)
    else pure (0, some page)

/-! ## What the page should hold -/

/-- The address of byte `o` of the first page of the stack of the child. -/
def stackVa (o : ℕ) : Word := ustacktop - BitVec.ofNat 32 by2pg + BitVec.ofNat 32 o

/-- The parts of the page: the two words at word `o`, the array at word `a`, and the strings, each
with its first byte and its size. -/
def stackRegions (strings : List (List (BitVec 8))) (o a : ℕ) (s : ℕ → ℕ) : List (ℕ × ℕ) :=
  (4 * o, 8) :: (4 * a, 4 * strings.length) ::
    (List.range strings.length).map fun i => (s i, (strings.getD i []).length + 1)

/-- **The arguments can be read back** by a child that begins with the stack pointer `sp`: there are
`argc`, the pointer to the array, the pointers and the strings, in parts of the page that do not
overlap. -/
structure StackLayout (strings : List (List (BitVec 8))) (m : Page) (sp : Word) (o a : ℕ)
    (s : ℕ → ℕ) : Prop where
  sp : sp = stackVa (4 * o)
  argc : m o = BitVec.ofNat 32 strings.length
  args : m (o + 1) = stackVa (4 * a)
  pointer : ∀ i < strings.length, m (a + i) = stackVa (s i)
  string : ∀ i < strings.length, IsString m (s i) (strings.getD i [])
  within : ∀ x ∈ stackRegions strings o a s, x.1 + x.2 ≤ by2pg
  apart : (stackRegions strings o a s).Pairwise fun x y => x.1 + x.2 ≤ y.1 ∨ y.1 + y.2 ≤ x.1

/-- The three system calls succeed. -/
def StackCalls.Succeed (calls : StackCalls) : Prop :=
  0 ≤ calls.alloc.toInt ∧ 0 ≤ calls.map.toInt ∧ 0 ≤ calls.unmap.toInt

/-- **Arguments that pass the size check can be read back.** -/
def Decodes (calls : StackCalls) (argv : ArgVec) : Prop :=
  argv.Accepted → ∃ m sp, initStack calls argv = some (0, some (m, sp)) ∧
    ∃ o a s, StackLayout argv.strings m sp o a s

/-- The word at an address of the child. -/
def childWord (m : Page) (va : Word) : Word :=
  m ((va - (ustacktop - BitVec.ofNat 32 by2pg)).toNat / 4)

/-- The child finds a null pointer in the array that it is given after exactly `n` others. -/
def StopsAfter (m : Page) (sp : Word) (n : ℕ) : Prop :=
  (∀ i < n, childWord m (childWord m (sp + 4) + 4 * BitVec.ofNat 32 i) ≠ 0) ∧
    childWord m (childWord m (sp + 4) + 4 * BitVec.ofNat 32 n) = 0

/-! ## Sizes -/

variable {ss : List (List (BitVec 8))} {m m' : Page} {p va w : Word} {i j k n o : ℕ}
  {s : List (BitVec 8)} {c : BitVec 8}

/-- The bytes of the strings with their null bytes. -/
def flat (ss : List (List (BitVec 8))) : List (BitVec 8) := ss.flatMap (· ++ [0])

/-- The number of these bytes. -/
def total (ss : List (List (BitVec 8))) : ℕ := (flat ss).length

@[simp] lemma total_nil : total [] = 0 := rfl

lemma flat_cons : flat (s :: ss) = s ++ [0] ++ flat ss := List.flatMap_cons

@[simp] lemma total_cons : total (s :: ss) = s.length + 1 + total ss := by
  rw [total, flat_cons, List.length_append, List.length_append, List.length_singleton, total]

lemma total_append (ss ss' : List (List (BitVec 8))) : total (ss ++ ss') = total ss + total ss' := by
  rw [total, flat, List.flatMap_append, List.length_append]
  rfl

/-- There is a null byte for each string. -/
lemma length_le_total (ss : List (List (BitVec 8))) : ss.length ≤ total ss := by
  induction ss with
  | nil => exact le_rfl
  | cons s ss ih =>
    rw [total_cons, List.length_cons]
    omega

lemma total_take_succ (hi : i < ss.length) :
    total (ss.take (i + 1)) = total (ss.take i) + ((ss.getD i []).length + 1) := by
  rw [List.take_succ_eq_append_getElem hi, total_append, List.getD_eq_getElem _ _ hi, total_cons,
    total_nil]

lemma total_take_mono (ss : List (List (BitVec 8))) (h : i ≤ j) :
    total (ss.take i) ≤ total (ss.take j) := by
  have hsplit : ss.take j = ss.take i ++ (ss.drop i).take (j - i) := by
    rw [← List.take_add, Nat.add_sub_cancel' h]
  rw [hsplit, total_append]
  exact Nat.le_add_right _ _

/-- The bytes of one of the strings. -/
lemma flat_getD (hi : i < ss.length) (hk : k ≤ (ss.getD i []).length) :
    (flat ss).getD (total (ss.take i) + k) 0 = (ss.getD i []).getD k 0 := by
  induction ss generalizing i with
  | nil => exact absurd hi (Nat.not_lt_zero i)
  | cons s ss ih =>
    rw [flat_cons]
    cases i with
    | zero =>
      rw [List.getD_cons_zero] at hk
      rw [List.take_zero, total_nil, Nat.zero_add, List.getD_cons_zero,
        List.getD_append _ _ _ _ (by simp; omega)]
      rcases hk.lt_or_eq with hlt | rfl
      · rw [List.getD_append _ _ _ _ hlt]
      · rw [List.getD_append_right _ _ _ _ le_rfl, Nat.sub_self, List.getD_eq_default _ _ le_rfl]
        rfl
    | succ i =>
      rw [List.getD_cons_succ] at hk
      rw [List.take_succ_cons, total_cons, List.getD_cons_succ,
        List.getD_append_right _ _ _ _ (by simp; omega), ← ih (by simpa using hi) hk]
      congr 1
      simp
      omega

/-- `argc` and `tot`. -/
lemma countArgs_eq (ss : List (List (BitVec 8))) (c t : Word) :
    countArgs ss (c, t) = (c + BitVec.ofNat 32 ss.length, t + BitVec.ofNat 32 (total ss)) := by
  induction ss generalizing c t with
  | nil => simp [countArgs]
  | cons s ss ih =>
    rw [countArgs, ih, List.length_cons, total_cons, BitVec.ofNat_add, BitVec.ofNat_add,
      BitVec.ofNat_add, BitVec.add_assoc, BitVec.add_assoc, BitVec.add_comm 1]
    rfl

lemma ArgVec.argc_eq (argv : ArgVec) : argv.argc = BitVec.ofNat 32 argv.strings.length := by
  rw [argc, countArgs_eq]
  exact BitVec.zero_add _

lemma ArgVec.tot_eq (argv : ArgVec) : argv.tot = BitVec.ofNat 32 (total argv.strings) := by
  rw [tot, countArgs_eq]
  exact BitVec.zero_add _

/-! ## Stores -/

/-- Byte `o` of the page. -/
def tempVa (o : ℕ) : Word := utemp + BitVec.ofNat 32 o

lemma tempVa_add (o k : ℕ) : tempVa o + BitVec.ofNat 32 k = tempVa (o + k) := by
  rw [tempVa, tempVa, BitVec.add_assoc, ← BitVec.ofNat_add]

lemma toNat_tempVa_sub (ho : o < 2 ^ 32) : (tempVa o - utemp).toNat = o := by
  rw [tempVa, add_sub_cancel_left, BitVec.toNat_ofNat, Nat.mod_eq_of_lt ho]

lemma inTemp_tempVa (ho : o < 2 ^ 32) : inTemp (tempVa o) = true ↔ o < by2pg := by
  rw [inTemp, toNat_tempVa_sub ho, decide_eq_true_iff]

lemma storeByte_tempVa (ho : o < by2pg) (m : Page) (c : BitVec 8) :
    storeByte m (tempVa o) c = some (set m o c) := by
  have h32 : o < 2 ^ 32 := ho.trans (by decide)
  rw [storeByte, if_pos ((inTemp_tempVa h32).mpr ho), toNat_tempVa_sub h32]

lemma storeWord_tempVa (ho : 4 * o < by2pg) (m : Page) (w : Word) :
    storeWord m (tempVa (4 * o)) w = some (Function.update m o w) := by
  have h32 : 4 * o < 2 ^ 32 := ho.trans (by decide)
  rw [storeWord, if_pos ((inTemp_tempVa h32).mpr ho), toNat_tempVa_sub h32,
    Nat.mul_div_cancel_left _ (by decide)]

/-- Two lists that are written one after the other. -/
lemma put_append (m : Page) (i : ℕ) (l l' : List (BitVec 8)) :
    put m i (l ++ l') = put (put m i l) (i + l.length) l' := by
  induction l generalizing m i with
  | nil => rfl
  | cons c l ih =>
    rw [List.cons_append, put, ih, put, List.length_cons, Nat.add_assoc, Nat.add_comm 1]

/-- The inner loop, from byte `o` on. -/
lemma copyString_tempVa (s : List (BitVec 8)) (m : Page) (ho : o + s.length < by2pg) :
    copyString s (m, tempVa o) = some (put m o (s ++ [0]), tempVa (o + (s.length + 1))) := by
  induction s generalizing m o with
  | nil =>
    rw [copyString, storeByte_tempVa (by simpa using ho)]
    change some (set m o 0, tempVa o + BitVec.ofNat 32 1) = _
    rw [tempVa_add]
    rfl
  | cons c s ih =>
    rw [List.length_cons] at ho
    rw [copyString, storeByte_tempVa (by omega)]
    change copyString s (set m o c, tempVa o + BitVec.ofNat 32 1) = _
    rw [tempVa_add, ih (set m o c) (by omega), List.cons_append, put, List.length_cons]
    congr 3
    omega

/-- **The strings are copied** one after the other, if there is room for them. -/
lemma copyStrings_tempVa (ss : List (List (BitVec 8))) (m : Page) (ho : o + total ss ≤ by2pg) :
    copyStrings ss (m, tempVa o) = some (put m o (flat ss), tempVa (o + total ss)) := by
  induction ss generalizing m o with
  | nil => rfl
  | cons s ss ih =>
    rw [total_cons] at ho
    rw [copyStrings, copyString_tempVa s m (by omega)]
    change copyStrings ss (put m o (s ++ [0]), tempVa (o + (s.length + 1))) = _
    rw [ih _ (by omega), flat_cons, put_append m o (s ++ [0]), List.length_append,
      List.length_singleton, total_cons, Nat.add_assoc]

/-- A loop that stores bytes has stored each of them in the page. -/
lemma copyString_inTemp {r : Page × Word} (h : copyString s (m, p) = some r) :
    (∀ k < s.length + 1, inTemp (p + BitVec.ofNat 32 k) = true) ∧
      r.2 = p + BitVec.ofNat 32 (s.length + 1) := by
  have hstore : ∀ {m m' : Page} {p : Word} {c : BitVec 8}, storeByte m p c = some m' →
      inTemp p = true := by
    intro m m' p c hm
    by_contra hno
    rw [storeByte, if_neg hno] at hm
    cases hm
  induction s generalizing m p with
  | nil =>
    obtain ⟨m', hm, hr⟩ := Option.bind_eq_some_iff.mp h
    obtain rfl := Option.some.inj hr
    refine ⟨fun k hk => ?_, rfl⟩
    obtain rfl : k = 0 := by simpa using hk
    rw [show p + BitVec.ofNat 32 0 = p from BitVec.add_zero p]
    exact hstore hm
  | cons c s ih =>
    obtain ⟨m', hm, hr⟩ := Option.bind_eq_some_iff.mp h
    obtain ⟨hin, hend⟩ := ih hr
    have hnext : ∀ k, p + 1 + BitVec.ofNat 32 k = p + BitVec.ofNat 32 (k + 1) := by
      intro k
      rw [BitVec.add_assoc, Nat.add_comm, BitVec.ofNat_add]
      rfl
    refine ⟨fun k hk => ?_, hend.trans (hnext _)⟩
    cases k with
    | zero =>
      rw [show p + BitVec.ofNat 32 0 = p from BitVec.add_zero p]
      exact hstore hm
    | succ k =>
      rw [← hnext]
      exact hin k (by simpa using hk)

/-- The strings are copied inside of the page. -/
lemma copyStrings_inTemp {r : Page × Word} (h : copyStrings ss (m, p) = some r) :
    ∀ k < total ss, inTemp (p + BitVec.ofNat 32 k) = true := by
  induction ss generalizing m p with
  | nil => exact fun k hk => absurd hk (Nat.not_lt_zero k)
  | cons s ss ih =>
    obtain ⟨⟨m', p'⟩, hs, hr⟩ := Option.bind_eq_some_iff.mp h
    obtain ⟨hin, hend⟩ := copyString_inTemp hs
    intro k hk
    rw [total_cons] at hk
    by_cases hlt : k < s.length + 1
    · exact hin k hlt
    · have hrest := ih hr (k - (s.length + 1)) (by omega)
      simp only at hend
      rw [hend, BitVec.add_assoc, ← BitVec.ofNat_add, Nat.add_sub_cancel' (by omega)] at hrest
      exact hrest

/-- **More bytes than the page has** do not stay in it. -/
lemma total_le_of_copyStrings {r : Page × Word} (h : copyStrings ss (m, p) = some r) :
    total ss ≤ by2pg := by
  by_contra hlt
  have hin := copyStrings_inTemp h
  have hb : by2pg = 4096 := rfl
  have h0 := hin 0 (by omega)
  have hoff : ∀ k, inTemp (p + BitVec.ofNat 32 k) = true →
      ((p - utemp).toNat + k) % 2 ^ 32 < by2pg := by
    intro k hk
    rw [inTemp, decide_eq_true_iff, add_sub_right_comm] at hk
    rwa [BitVec.toNat_add, BitVec.toNat_ofNat, Nat.add_mod_mod] at hk
  have hfirst := hoff 0 h0
  -- the first byte that comes behind the page
  have hlast := hoff (by2pg - (p - utemp).toNat) (hin _ (by omega))
  have hlt32 := (p - utemp).isLt
  omega

/-! ## The pointers -/

/-- The loop over the arguments stores the addresses of the strings, one behind the other. -/
lemma storeArgs_tempVa (a : ℕ) (ss : List (List (BitVec 8))) (i : ℕ) (m : Page) (p : Word)
    (ha : 4 * (a + i + ss.length) ≤ by2pg) :
    storeArgs (tempVa (4 * a)) ss i (m, p) =
      some (fun x => if a + i ≤ x ∧ x < a + i + ss.length then
          p + BitVec.ofNat 32 (total (ss.take (x - (a + i)))) else m x,
        p + BitVec.ofNat 32 (total ss)) := by
  induction ss generalizing i m p with
  | nil =>
    rw [storeArgs]
    congr 2
    · funext x
      rw [if_neg (by simp only [List.length_nil]; omega)]
    · exact (BitVec.add_zero p).symm
  | cons s ss ih =>
    rw [List.length_cons] at ha
    have haddr : tempVa (4 * a) + 4 * BitVec.ofNat 32 i = tempVa (4 * (a + i)) := by
      rw [Nat.mul_add, ← tempVa_add, BitVec.ofNat_mul]
      rfl
    rw [storeArgs, haddr, storeWord_tempVa (by omega)]
    change storeArgs (tempVa (4 * a)) ss (i + 1) (Function.update m (a + i) p, _) = _
    rw [ih (i + 1) _ _ (by omega), BitVec.add_assoc]
    congr 2
    · funext x
      by_cases hx : x = a + i
      · subst hx
        rw [if_neg (by omega), Function.update_self, if_pos (by simp only [List.length_cons]; omega),
          Nat.sub_self, List.take_zero, total_nil]
        exact (BitVec.add_zero p).symm
      · by_cases hin : a + (i + 1) ≤ x ∧ x < a + (i + 1) + ss.length
        · have hpred : x - (a + i) = x - (a + (i + 1)) + 1 := by omega
          rw [if_pos hin, if_pos (by simp only [List.length_cons]; omega), hpred,
            List.take_succ_cons, total_cons, BitVec.ofNat_add, BitVec.ofNat_add, BitVec.add_assoc]
          rfl
        · rw [if_neg hin, if_neg (by simp only [List.length_cons]; omega),
            Function.update_of_ne hx]
    · rw [total_cons, BitVec.ofNat_add, BitVec.ofNat_add]
      rfl

/-! ## The places in the page -/

/-- `ROUND` rounds up, unless it wraps. -/
lemma round4_ofNat (hn : n + 3 < 2 ^ 32) :
    round4 (BitVec.ofNat 32 n) = BitVec.ofNat 32 (4 * ((n + 3) / 4)) := by
  have hmask : ∀ x : Word, x &&& ~~~3#32 = (x >>> 2) <<< 2 := by
    intro x
    apply BitVec.eq_of_getLsbD_eq
    intro i hi
    have h3 : ∀ i < 32, (~~~3#32).getLsbD i = decide (2 ≤ i) := by decide
    rw [BitVec.getLsbD_and, h3 i hi, BitVec.getLsbD_shiftLeft, BitVec.getLsbD_ushiftRight]
    by_cases h2 : 2 ≤ i
    · rw [decide_eq_true h2, decide_eq_true hi, decide_eq_false (Nat.not_lt.mpr h2),
        Nat.add_sub_cancel' h2, Bool.and_true, Bool.not_false, Bool.true_and, Bool.true_and]
    · rw [decide_eq_false h2, decide_eq_true (Nat.lt_of_not_le h2), Bool.and_false, Bool.not_true,
        Bool.and_false, Bool.false_and]
  have hsum : BitVec.ofNat 32 n + 3 = BitVec.ofNat 32 (n + 3) := by
    rw [BitVec.ofNat_add]
    rfl
  rw [round4, hsum, hmask]
  apply BitVec.eq_of_toNat_eq
  rw [BitVec.toNat_shiftLeft, BitVec.toNat_ushiftRight, BitVec.toNat_ofNat, BitVec.toNat_ofNat,
    Nat.mod_eq_of_lt hn, Nat.shiftRight_eq_div_pow, Nat.shiftLeft_eq, Nat.mul_comm]

namespace ArgVec

variable (argv : ArgVec)

/-- The bytes of the page that the arguments take. -/
def need : ℕ := 4 * ((total argv.strings + 3) / 4) + 4 * (argv.strings.length + 3)

/-- The check compares this number, if the strings are not longer than a page. -/
lemma accepted_iff (hT : total argv.strings ≤ by2pg) : argv.Accepted ↔ argv.need ≤ by2pg := by
  have hlen := length_le_total argv.strings
  have hb : by2pg = 4096 := rfl
  have h3 : BitVec.ofNat 32 argv.strings.length + 3 = BitVec.ofNat 32 (argv.strings.length + 3) := by
    rw [BitVec.ofNat_add]
    rfl
  have h4 : 4 * BitVec.ofNat 32 (argv.strings.length + 3) =
      BitVec.ofNat 32 (4 * (argv.strings.length + 3)) := by
    rw [BitVec.ofNat_mul]
    rfl
  rw [Accepted, tot_eq, argc_eq, round4_ofNat (by omega), h3, h4, ← BitVec.ofNat_add, BitVec.le_def,
    BitVec.toNat_ofNat, BitVec.toNat_ofNat, Nat.mod_eq_of_lt (by omega), Nat.mod_eq_of_lt (by omega),
    need]

/-- The word at which the array begins. -/
def argsWord : ℕ := 1024 - (total argv.strings + 3) / 4 - (argv.strings.length + 1)

/-- The byte at which the strings begin. -/
def stringsByte : ℕ := by2pg - total argv.strings

end ArgVec

lemma tempVa_sub (h : k ≤ o) : tempVa o - BitVec.ofNat 32 k = tempVa (o - k) := by
  rw [sub_eq_iff_eq_add, tempVa_add, Nat.sub_add_cancel h]

lemma toChild_tempVa (o : ℕ) : toChild (tempVa o) = stackVa o := by
  have hbase : ustacktop - utemp - BitVec.ofNat 32 by2pg + utemp =
      ustacktop - BitVec.ofNat 32 by2pg := by decide
  rw [toChild, tempVa, ← BitVec.add_assoc, hbase, stackVa]

lemma stackVa_add (o k : ℕ) : stackVa o + BitVec.ofNat 32 k = stackVa (o + k) := by
  rw [stackVa, stackVa, BitVec.add_assoc, ← BitVec.ofNat_add]

section Fits

variable {argv : ArgVec} (h : argv.need ≤ by2pg)

include h

/-- The parts of the page lie one behind the other. -/
lemma ArgVec.places : 2 ≤ argv.argsWord ∧
    4 * (argv.argsWord + argv.strings.length + 1) ≤ argv.stringsByte ∧
    argv.stringsByte + total argv.strings = by2pg := by
  have hb : by2pg = 4096 := rfl
  rw [ArgVec.need] at h
  rw [ArgVec.argsWord, ArgVec.stringsByte]
  omega

lemma ArgVec.stringsAt_eq : argv.stringsAt = tempVa argv.stringsByte := by
  obtain ⟨-, -, hend⟩ := argv.places h
  rw [ArgVec.stringsAt, argv.tot_eq, ArgVec.stringsByte]
  exact tempVa_sub (by omega)

/-- The array lies at a multiple of 4. -/
lemma ArgVec.argsAt_eq : argv.argsAt = tempVa (4 * argv.argsWord) := by
  obtain ⟨ha, hs, hend⟩ := argv.places h
  have hb : by2pg = 4096 := rfl
  have h1 : BitVec.ofNat 32 argv.strings.length + 1 = BitVec.ofNat 32 (argv.strings.length + 1) := by
    rw [BitVec.ofNat_add]
    rfl
  have h4 : 4 * BitVec.ofNat 32 (argv.strings.length + 1) =
      BitVec.ofNat 32 (4 * (argv.strings.length + 1)) := by
    rw [BitVec.ofNat_mul]
    rfl
  have hneed := h
  rw [ArgVec.need] at hneed
  rw [ArgVec.argsAt, argv.tot_eq, argv.argc_eq, round4_ofNat (by omega), h1, h4]
  change tempVa by2pg - _ - _ = _
  rw [tempVa_sub (by omega), tempVa_sub (by omega), ArgVec.argsWord]
  congr 1
  omega

end Fits

/-- The page that is built: the strings, the pointers with the one behind them, the pointer to the
array, and `argc`. -/
def stackPage (argv : ArgVec) : Page :=
  let m := put (fun _ => 0) argv.stringsByte (flat argv.strings)
  let m := fun x => if argv.argsWord ≤ x ∧ x < argv.argsWord + argv.strings.length then
    stackVa argv.stringsByte + BitVec.ofNat 32 (total (argv.strings.take (x - argv.argsWord)))
    else m x
  let m := Function.update m (argv.argsWord + argv.strings.length) (ustacktop - 1)
  let m := Function.update m (argv.argsWord - 1) (stackVa (4 * argv.argsWord))
  Function.update m (argv.argsWord - 2) (BitVec.ofNat 32 argv.strings.length)

/-- **The page is built** if the arguments fit. -/
lemma buildStack_eq {argv : ArgVec} (h : argv.need ≤ by2pg) :
    buildStack argv = some (stackPage argv, stackVa (4 * (argv.argsWord - 2))) := by
  obtain ⟨ha, hs, hend⟩ := argv.places h
  have hb : by2pg = 4096 := rfl
  have hlast : tempVa (4 * argv.argsWord) + 4 * BitVec.ofNat 32 argv.strings.length =
      tempVa (4 * (argv.argsWord + argv.strings.length)) := by
    rw [Nat.mul_add, ← tempVa_add, BitVec.ofNat_mul]
    rfl
  have hsub : ∀ k ≤ argv.argsWord, tempVa (4 * argv.argsWord) - BitVec.ofNat 32 (4 * k) =
      tempVa (4 * (argv.argsWord - k)) := by
    intro k hk
    rw [tempVa_sub (by omega), Nat.mul_sub]
  have hsub1 : tempVa (4 * argv.argsWord) - 4 = tempVa (4 * (argv.argsWord - 1)) :=
    hsub 1 (by omega)
  have hsub2 : tempVa (4 * argv.argsWord) - 8 = tempVa (4 * (argv.argsWord - 2)) := hsub 2 ha
  have htop : stackVa by2pg = ustacktop := by decide
  have hptr : stackVa argv.stringsByte + BitVec.ofNat 32 (total argv.strings) = ustacktop := by
    rw [stackVa_add, hend, htop]
  unfold buildStack
  rw [argv.stringsAt_eq h, argv.argsAt_eq h, argv.argc_eq, toChild_tempVa,
    copyStrings_tempVa _ _ hend.le]
  simp only [Option.bind_eq_bind, Option.bind_some]
  rw [storeArgs_tempVa _ _ _ _ _ (by omega)]
  simp only [Option.bind_some, Nat.add_zero]
  rw [hlast, storeWord_tempVa (by omega), Option.bind_some, hsub1, storeWord_tempVa (by omega),
    Option.bind_some, hsub2, storeWord_tempVa (by omega), Option.bind_some, hptr, toChild_tempVa,
    toChild_tempVa]
  rfl

/-! ## Reading the page -/

section Reads

variable {argv : ArgVec} (h : argv.need ≤ by2pg)

lemma stackPage_argc : stackPage argv (argv.argsWord - 2) =
    BitVec.ofNat 32 argv.strings.length := by
  rw [stackPage, Function.update_self]

include h

lemma stackPage_args : stackPage argv (argv.argsWord - 1) = stackVa (4 * argv.argsWord) := by
  obtain ⟨ha, -, -⟩ := argv.places h
  rw [stackPage, Function.update_of_ne (by omega), Function.update_self]

lemma stackPage_pointer (hi : i < argv.strings.length) : stackPage argv (argv.argsWord + i) =
    stackVa (argv.stringsByte + total (argv.strings.take i)) := by
  obtain ⟨ha, -, -⟩ := argv.places h
  rw [stackPage, Function.update_of_ne (by omega), Function.update_of_ne (by omega),
    Function.update_of_ne (by omega), if_pos (by omega), Nat.add_sub_cancel_left, stackVa_add]

/-- What is behind the pointers: the address of the last byte of the page. -/
lemma stackPage_last : stackPage argv (argv.argsWord + argv.strings.length) = ustacktop - 1 := by
  obtain ⟨ha, -, -⟩ := argv.places h
  rw [stackPage, Function.update_of_ne (by omega), Function.update_of_ne (by omega),
    Function.update_self]

/-- The bytes of the strings are not overwritten. -/
lemma stackPage_byte (hk : k < total argv.strings) :
    get (stackPage argv) (argv.stringsByte + k) = (flat argv.strings).getD k 0 := by
  obtain ⟨ha, hs, -⟩ := argv.places h
  have hword : stackPage argv ((argv.stringsByte + k) / 4) =
      put (fun _ => 0) argv.stringsByte (flat argv.strings) ((argv.stringsByte + k) / 4) := by
    rw [stackPage, Function.update_of_ne (by omega), Function.update_of_ne (by omega),
      Function.update_of_ne (by omega), if_neg (by omega)]
  have hlen : (flat argv.strings).length = total argv.strings := rfl
  rw [ByteWords.get, hword, ← ByteWords.get, get_put, if_pos ⟨by omega, by omega⟩,
    Nat.add_sub_cancel_left]

/-- **The arguments can be read back** from the page. -/
lemma stackLayout : StackLayout argv.strings (stackPage argv) (stackVa (4 * (argv.argsWord - 2)))
    (argv.argsWord - 2) argv.argsWord
    fun i => argv.stringsByte + total (argv.strings.take i) := by
  obtain ⟨ha, hs, hend⟩ := argv.places h
  have hmono : ∀ i < argv.strings.length, total (argv.strings.take i) +
      ((argv.strings.getD i []).length + 1) ≤ total argv.strings := by
    intro i hi
    rw [← total_take_succ hi]
    calc total (argv.strings.take (i + 1))
        ≤ total (argv.strings.take argv.strings.length) := total_take_mono _ hi
      _ = total argv.strings := by rw [List.take_length]
  refine ⟨rfl, stackPage_argc, ?_, fun i hi => stackPage_pointer h hi, fun i hi k hk => ?_, ?_, ?_⟩
  · rw [show argv.argsWord - 2 + 1 = argv.argsWord - 1 by omega]
    exact stackPage_args h
  · have hlt := hmono i hi
    rw [Nat.add_assoc, stackPage_byte h (by omega), flat_getD hi hk]
  · intro x hx
    rcases List.mem_cons.mp hx with rfl | hx
    · change 4 * (argv.argsWord - 2) + 8 ≤ by2pg
      omega
    rcases List.mem_cons.mp hx with rfl | hx
    · change 4 * argv.argsWord + 4 * argv.strings.length ≤ by2pg
      omega
    obtain ⟨i, hi, rfl⟩ := List.mem_map.mp hx
    have hlt := hmono i (List.mem_range.mp hi)
    change argv.stringsByte + _ + _ ≤ by2pg
    omega
  · refine List.pairwise_cons.mpr ⟨fun y hy => ?_, List.pairwise_cons.mpr ⟨fun y hy => ?_, ?_⟩⟩
    · left
      rcases List.mem_cons.mp hy with rfl | hy
      · change 4 * (argv.argsWord - 2) + 8 ≤ 4 * argv.argsWord
        omega
      · obtain ⟨i, -, rfl⟩ := List.mem_map.mp hy
        change 4 * (argv.argsWord - 2) + 8 ≤ argv.stringsByte + _
        omega
    · left
      obtain ⟨i, -, rfl⟩ := List.mem_map.mp hy
      change 4 * argv.argsWord + 4 * argv.strings.length ≤ argv.stringsByte + _
      omega
    · rw [List.pairwise_map]
      refine List.pairwise_lt_range.imp_of_mem fun {i j} hi _ hij => .inl ?_
      have hle := total_take_mono argv.strings (Nat.succ_le_of_lt hij)
      rw [total_take_succ (List.mem_range.mp hi)] at hle
      change argv.stringsByte + _ + _ ≤ argv.stringsByte + _
      omega

/-- The child does not find a null pointer behind the pointers. -/
lemma not_stopsAfter : ¬ StopsAfter (stackPage argv) (stackVa (4 * (argv.argsWord - 2)))
    argv.strings.length := by
  obtain ⟨ha, hs, hend⟩ := argv.places h
  have hb : by2pg = 4096 := rfl
  have hword : ∀ x < 1024, childWord (stackPage argv) (stackVa (4 * x)) = stackPage argv x := by
    intro x hx
    rw [childWord, stackVa, add_sub_cancel_left, BitVec.toNat_ofNat, Nat.mod_eq_of_lt (by omega),
      Nat.mul_div_cancel_left _ (by decide)]
  have hargs : stackVa (4 * (argv.argsWord - 2)) + 4 = stackVa (4 * (argv.argsWord - 1)) := by
    have hadd := stackVa_add (4 * (argv.argsWord - 2)) 4
    rw [show 4 * (argv.argsWord - 2) + 4 = 4 * (argv.argsWord - 1) by omega] at hadd
    exact hadd
  have hlast : stackVa (4 * argv.argsWord) + 4 * BitVec.ofNat 32 argv.strings.length =
      stackVa (4 * (argv.argsWord + argv.strings.length)) := by
    rw [Nat.mul_add, ← stackVa_add, BitVec.ofNat_mul]
    rfl
  rintro ⟨-, hzero⟩
  rw [hargs, hword _ (by omega), stackPage_args h, hlast, hword _ (by omega),
    stackPage_last h] at hzero
  exact absurd hzero (by decide)

end Reads

/-! ## Accepted arguments -/

/-- A page is built only of arguments that fit. -/
lemma need_le_of_initStack {calls : StackCalls} {argv : ArgVec} {ret sp : Word}
    (h : initStack calls argv = some (ret, some (m, sp))) :
    argv.need ≤ by2pg ∧ buildStack argv = some (m, sp) := by
  have hbuild : argv.Accepted ∧ buildStack argv = some (m, sp) := by
    unfold initStack at h
    rcases hb : buildStack argv with _ | page
    · rw [hb] at h
      split_ifs at h <;> cases h
    · rw [hb] at h
      split_ifs at h with hacc
      all_goals cases h
      all_goals exact ⟨hacc, rfl⟩
  obtain ⟨⟨m', p'⟩, hcopy, -⟩ := Option.bind_eq_some_iff.mp hbuild.2
  exact ⟨(argv.accepted_iff (total_le_of_copyStrings hcopy)).mp hbuild.1, hbuild.2⟩

/-- `init_stack` builds the page if the arguments fit and the system calls succeed. -/
lemma initStack_eq {calls : StackCalls} {argv : ArgVec} (hcalls : calls.Succeed)
    (hacc : argv.Accepted) (hneed : argv.need ≤ by2pg) : initStack calls argv =
      some (0, some (stackPage argv, stackVa (4 * (argv.argsWord - 2)))) := by
  obtain ⟨h1, h2, h3⟩ := hcalls
  rw [initStack, if_neg (not_not.mpr hacc), if_neg (by omega), buildStack_eq hneed]
  change (if calls.map.toInt < 0 then _ else if calls.unmap.toInt < 0 then _ else _) = _
  rw [if_neg (by omega), if_neg (by omega)]
  rfl

/-- **When accepted arguments can be read back**: exactly if the check rejects them, or they fit
when their lengths are added as numbers without a bound. -/
theorem initStack_decodes_iff (calls : StackCalls) (argv : ArgVec) (hcalls : calls.Succeed) :
    Decodes calls argv ↔ ¬ argv.Accepted ∨ argv.need ≤ by2pg := by
  constructor
  · intro hdec
    by_cases hacc : argv.Accepted
    · obtain ⟨m, sp, hinit, -⟩ := hdec hacc
      exact .inr (need_le_of_initStack hinit).1
    · exact .inl hacc
  · rintro (hrej | hneed) hacc
    · exact absurd hacc hrej
    · exact ⟨_, _, initStack_eq hcalls hacc hneed, _, _, _, stackLayout hneed⟩

/-- The system calls return 0. -/
def callsOk : StackCalls := ⟨0, 0, 0⟩

lemma callsOk_succeed : callsOk.Succeed := by
  refine ⟨?_, ?_, ?_⟩ <;> decide

/-- One argument, "a". -/
def oneArg : ArgVec where
  strings := [[0x61]]
  zero_notMem := by decide
  length_lt := by decide
  argc_lt := by decide

lemma oneArg_need : oneArg.need ≤ by2pg := by decide

lemma oneArg_accepted : oneArg.Accepted := (oneArg.accepted_iff (by decide)).mpr oneArg_need

/-- For one argument, with calls that succeed. -/
theorem initStack_decodes_oneArg : Decodes callsOk oneArg :=
  (initStack_decodes_iff callsOk oneArg callsOk_succeed).mpr (.inr oneArg_need)

/-- Four pointers to a string of 2^30 - 1 bytes. -/
def wrappedArgs : ArgVec where
  strings := List.replicate 4 (List.replicate (2 ^ 30 - 1) 0x61)
  zero_notMem := by
    intro s hs h0
    rw [List.eq_of_mem_replicate hs] at h0
    exact absurd (List.eq_of_mem_replicate h0) (by decide)
  length_lt := by
    intro s hs
    rw [List.eq_of_mem_replicate hs, List.length_replicate]
    omega
  argc_lt := by
    rw [List.length_replicate]
    omega

lemma total_replicate (n : ℕ) (s : List (BitVec 8)) :
    total (List.replicate n s) = n * (s.length + 1) := by
  induction n with
  | zero => rw [List.replicate_zero, total_nil, Nat.zero_mul]
  | succ n ih => rw [List.replicate_succ, total_cons, ih, Nat.succ_mul, Nat.add_comm]

lemma wrappedArgs_total : total wrappedArgs.strings = 2 ^ 32 := by
  rw [wrappedArgs, total_replicate, List.length_replicate]
  omega

lemma wrappedArgs_length : wrappedArgs.strings.length = 4 := by
  rw [wrappedArgs, List.length_replicate]

/-- **A size that wraps**: the check adds up the lengths to 0, and the strings are copied out of the
page. -/
theorem not_initStack_decodes :
    ¬ ∀ (calls : StackCalls) (argv : ArgVec), calls.Succeed → Decodes calls argv := by
  intro hall
  have hacc : wrappedArgs.Accepted := by
    have htot : wrappedArgs.tot = 0 := by
      rw [wrappedArgs.tot_eq, wrappedArgs_total]
      decide
    rw [ArgVec.Accepted, htot, wrappedArgs.argc_eq, wrappedArgs_length]
    decide
  obtain ⟨m, sp, hinit, -⟩ := hall callsOk wrappedArgs callsOk_succeed hacc
  have hneed := (need_le_of_initStack hinit).1
  have hb : by2pg = 4096 := rfl
  rw [ArgVec.need, wrappedArgs_total] at hneed
  omega

/-- **The array is not terminated**: in every page that is built the child finds no null pointer
behind the pointers to its arguments. -/
theorem args_not_terminated (calls : StackCalls) (argv : ArgVec) (ret sp : Word) (m : Page)
    (h : initStack calls argv = some (ret, some (m, sp))) :
    ¬ StopsAfter m sp argv.strings.length := by
  obtain ⟨hneed, hbuild⟩ := need_le_of_initStack h
  rw [buildStack_eq hneed, Option.some.injEq, Prod.mk.injEq] at hbuild
  rw [← hbuild.1, ← hbuild.2]
  exact not_stopsAfter hneed

/-- One argument. -/
theorem args_not_terminated_oneArg :
    ¬ StopsAfter (stackPage oneArg) (stackVa (4 * (oneArg.argsWord - 2))) 1 :=
  args_not_terminated callsOk oneArg 0 _ _ (initStack_eq callsOk_succeed oneArg_accepted oneArg_need)

/-- **A null pointer that is missing**: a child that gets one argument does not find the end of its
array behind it. -/
theorem not_args_terminated : ¬ ∀ (calls : StackCalls) (argv : ArgVec) (ret sp : Word) (m : Page),
    initStack calls argv = some (ret, some (m, sp)) → StopsAfter m sp argv.strings.length := by
  intro hall
  exact not_stopsAfter oneArg_need
    (hall callsOk oneArg 0 _ _ (initStack_eq callsOk_succeed oneArg_accepted oneArg_need))

end MosVolca
