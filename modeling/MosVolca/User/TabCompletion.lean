import MosVolca.Fs.File
import MosVolca.Lib.Strings
import MosVolca.Library.BoundedArray
import MosVolca.User.Readline

/-!
# Completing file names in the shell

Tab looks for the files whose names go on where the word before the cursor ends. `tabFlushDir` of
`user/sh.c` takes the word apart, reads the directory and keeps the rests of the names in the table
`completions`, whose rows lie one behind the other; the rests are what `strContain` of
`lib/string.c` finds.

## Main definitions

* `MosVolca.strContain` — the comparison of two strings.
* `MosVolca.Tab` — the variables of the completion.
* `MosVolca.Tab.flushDir` — `tabFlushDir`.
* `MosVolca.Completes` — what `strContain` is for.

## Main results

* `MosVolca.Tab.flushDir_stays` — when the rests fit into the table.
* `MosVolca.completes_iff` — the comparison does what it is for on different strings.
-/

namespace MosVolca

open BoundedArray ByteLoop CString

/-- `strContain`: the rest of `parent`, which is copied to `waitToComp`, or -1. The loop over equal
characters does not look for the null byte; it is cut off after the whole address space. -/
def strContain (parent child : Chars) : Option Chars :=
  let i := extent 32 (fun i => parent i != child i) - 1
  if ¬isVisable (parent i) then none
  else if child i = 0 then some fun j => parent (i + j)
  else none

/-- `MAXFILENUM`. -/
def maxfilenum : ℕ := 128

/-- The size of `completions`. -/
def completionsLen : ℕ := maxfilenum * maxnamelen

/-- The variables of the completion. -/
structure Tab where
  tabFlush : Bool
  /-- The rows of the table, one behind the other. -/
  completions : Chars
  compNum : ℕ
  tabPoint : ℕ
  beforeTab : ℕ

/-- What the completion finds outside of the shell: the files of a directory, each from `f_name` on,
if it can be opened, where the empty path is that of the environment; and what is on the stack
behind the word. -/
structure Listing where
  files : List (BitVec 8) → Option (List Chars)
  stack : Chars

/-- `tobeCom`, an array of null bytes before the word comes into it. -/
def Listing.word (d : Listing) (tobeCom : List (BitVec 8)) : Chars :=
  fun i => if i < 1024 then tobeCom.getD i 0 else d.stack i

/-- `strRevCpy`. -/
def strRevCpy (src : List (BitVec 8)) : List (BitVec 8) := (src.takeWhile (· != 0)).reverse

/-- The variables of `getTbCom`; `tmpDir` is what has been stored there. The arrays have as many
places as the line. -/
structure TbCom where
  tobeCom : List (BitVec 8)
  tmpDir : List (BitVec 8)
  hasTobe : Bool

/-- The loop of `getTbCom`, over the places below `i`. -/
def getTbComLoop (beforeCur : Chars) : ℕ → TbCom → Option TbCom
  | 0, s => some s
  | i + 1, s => do
    let c ← get 1024 beforeCur i
    if c = 32#8 then pure s
    else if c = 47#8 ∧ s.hasTobe = false then
      getTbComLoop beforeCur i ⟨strRevCpy s.tmpDir, [47#8], true⟩
    else getTbComLoop beforeCur i { s with tmpDir := s.tmpDir ++ [c] }

/-- `getTbCom`: `comPath` and `tobeCom`. -/
def getTbCom (e : Editor) : Option (List (BitVec 8) × List (BitVec 8)) := do
  let s ← getTbComLoop e.beforeCur e.beforeLen ⟨[], [], false⟩
  if s.hasTobe then pure (strRevCpy s.tmpDir, s.tobeCom) else pure ([], strRevCpy s.tmpDir)

namespace Tab

/-- The string in row `i` of the table. -/
def row (t : Tab) (i : ℕ) : Option (List (BitVec 8)) :=
  str (completionsLen - i * maxnamelen) fun j => t.completions (i * maxnamelen + j)

/-- The round of `tabFlushDir` for a file. -/
def addFile (tobeCom : Chars) (t : Tab) (f : Chars) : Option Tab :=
  if f 0 = 0 then some t
  else
    match strContain f tobeCom with
    | none => some t
    | some rest => do
      let completions ← BoundedArray.strcpy completionsLen t.completions (t.compNum * maxnamelen) rest
      pure { t with completions := completions, compNum := t.compNum + 1 }

/-- `tabFlushDir`. -/
def flushDir (d : Listing) (e : Editor) (t : Tab) : Option Tab := do
  let (comPath, tobeCom) ← getTbCom e
  if tobeCom = [] then pure t
  else
    match d.files comPath with
    | none => pure t
    | some files => files.foldlM (addFile (d.word tobeCom)) { t with compNum := 0 }

/-- The rest that goes into the table for a file. -/
def restOf (tobeCom f : Chars) : Option Chars := if f 0 = 0 then none else strContain f tobeCom

/-- The rests go into the table from row `n` on, each with its null byte. -/
def RestsFit (n : ℕ) (rests : List Chars) : Prop :=
  ∀ k r, rests[k]? = some r → ∃ j, (n + k) * maxnamelen + j < completionsLen ∧ r j = 0

/-- What `tabFlushDir` stores fits into the table. -/
def FlushFits (d : Listing) (e : Editor) : Prop :=
  ∀ comPath tobeCom files, getTbCom e = some (comPath, tobeCom) → tobeCom ≠ [] →
    d.files comPath = some files → RestsFit 0 (files.filterMap (restOf (d.word tobeCom)))

/-- The rows of the table that are used end within it. -/
def Terminated (t : Tab) : Prop :=
  t.compNum ≠ 0 → ∃ i, (t.compNum - 1) * maxnamelen ≤ i ∧ i < completionsLen ∧ t.completions i = 0

variable {t : Tab} {d : Listing} {e : Editor} {tobeCom : Chars} {i : ℕ}

/-- `getTbCom` reads the characters before the cursor. -/
lemma getTbCom_isSome (h : e.beforeLen ≤ 1024) : (getTbCom e).isSome := by
  have hloop : ∀ i s, i ≤ 1024 → ∃ s', getTbComLoop e.beforeCur i s = some s' := by
    intro i
    induction i with
    | zero => exact fun s _ => ⟨s, rfl⟩
    | succ i ih =>
      intro s hi
      rw [getTbComLoop, get_of_lt (show i < 1024 by omega)]
      simp only [Option.bind_eq_bind, Option.bind_some]
      split_ifs
      · exact ⟨s, rfl⟩
      · exact ih _ (by omega)
      · exact ih _ (by omega)
  obtain ⟨s, hs⟩ := hloop e.beforeLen ⟨[], [], false⟩ h
  unfold getTbCom
  rw [hs]
  simp only [Option.bind_eq_bind, Option.bind_some]
  split_ifs
  · rfl
  · rfl

/-- `addFile` by the rest of the name. -/
lemma addFile_eq (tobeCom : Chars) (t : Tab) (f : Chars) : addFile tobeCom t f =
    (restOf tobeCom f).elim (some t) fun r =>
      (BoundedArray.strcpy completionsLen t.completions (t.compNum * maxnamelen) r).map fun b =>
        { t with completions := b, compNum := t.compNum + 1 } := by
  unfold addFile restOf
  split_ifs
  · rfl
  · rcases strContain f tobeCom with - | r
    · rfl
    · exact Option.map_eq_bind.symm

lemma restsFit_cons (n : ℕ) (r : Chars) (rests : List Chars) : RestsFit n (r :: rests) ↔
    (∃ j, n * maxnamelen + j < completionsLen ∧ r j = 0) ∧ RestsFit (n + 1) rests := by
  have hnext : ∀ k, n + 1 + k = n + (k + 1) := fun k => by omega
  unfold RestsFit
  constructor
  · exact fun h => ⟨h 0 r rfl, fun k r' hk => hnext k ▸ h (k + 1) r' hk⟩
  · rintro ⟨h, hs⟩ (- | k) r' hk
    · cases hk
      exact h
    · exact hnext k ▸ hs k r' hk

/-- The loop of `tabFlushDir` stays in the table exactly if the rests fit. -/
lemma foldlM_addFile_stays (files : List Chars) (ht : t.Terminated) :
    Stays (files.foldlM (addFile tobeCom) t)
      (RestsFit t.compNum (files.filterMap (restOf tobeCom))) Terminated := by
  induction files generalizing t with
  | nil => exact Stays.of_some (fun _ _ hk => nomatch hk) ht
  | cons f files ih =>
    rw [List.foldlM_cons, addFile_eq]
    rcases hr : restOf tobeCom f with - | r
    · rw [List.filterMap_cons_none hr]
      exact ih ht
    rw [List.filterMap_cons_some hr]
    refine Stays.congr ?_ (restsFit_cons _ _ _).symm
    dsimp only [Option.elim_some]
    rw [Option.map_eq_bind, Option.bind_eq_bind, Option.bind_assoc]
    exact (strcpy_stays completionsLen t.completions (t.compNum * maxnamelen) r).bind_and
      fun b hb => ih (t := { t with completions := b, compNum := t.compNum + 1 }) fun _ => hb

/-- **`tabFlushDir`** stays in its arrays exactly if the rests fit into the table, and then every row
ends within it. -/
theorem flushDir_stays (h : e.beforeLen ≤ 1024) (h0 : t.compNum = 0) :
    Stays (flushDir d e t) (FlushFits d e) Terminated := by
  have hempty : ∀ u : Tab, u.compNum = 0 → u.Terminated := fun u hu hne => absurd hu hne
  obtain ⟨⟨comPath, tobeCom⟩, hcom⟩ := Option.isSome_iff_exists.mp (getTbCom_isSome h)
  unfold flushDir FlushFits
  rw [hcom]
  simp only [Option.bind_eq_bind, Option.bind_some]
  by_cases hword : tobeCom = []
  · rw [if_pos hword]
    refine Stays.of_some (fun _ _ _ hcom' hne => absurd hword ?_) (hempty t h0)
    cases hcom'
    exact hne
  rw [if_neg hword]
  rcases hfiles : d.files comPath with - | files
  · refine Stays.of_some (fun _ _ _ hcom' _ hsome => ?_) (hempty t h0)
    cases hcom'
    exact nomatch hfiles.symm.trans hsome
  refine (foldlM_addFile_stays files (hempty { t with compNum := 0 } rfl)).congr
    ⟨fun hfit _ _ _ hcom' _ hsome => ?_, fun hfit => hfit _ _ _ rfl hword hfiles⟩
  cases hcom'
  cases hfiles.symm.trans hsome
  exact hfit

/-- **A used row** ends within the table. -/
lemma Terminated.row (ht : t.Terminated) (hi : i < t.compNum) : ∃ s, t.row i = some s := by
  obtain ⟨k, hk, hlt, h0⟩ := ht (by omega)
  have hle : i * maxnamelen ≤ k := (Nat.mul_le_mul_right _ (by omega)).trans hk
  exact ⟨_, str_of_zero (i := k - i * maxnamelen) (by omega)
    (by rw [Nat.add_sub_cancel' hle]; exact h0)⟩

end Tab

/-! ## What the comparison finds and reads -/

/-- The numbers of bytes of both strings that `strContain` reads: those of the loop, and what
`strcpy` copies of the first one. -/
def strContainReads (parent child : Chars) : ℕ × ℕ :=
  let n := extent 32 fun i => parent i != child i
  match strContain parent child with
  | some rest => (n - 1 + extent 32 fun i => rest i == 0, n)
  | none => (n, n)

/-- What `strContain` is for: it finds the rest of `parent` behind `child` exactly if there is one
that begins with a visible character, and looks at neither string behind its null byte. -/
structure Completes (parent child : UserStr) : Prop where
  isSome : (strContain parent.chars child.chars).isSome ↔
    ∃ c t, parent.bytes = child.bytes ++ c :: t ∧ isVisable c
  rest : ∀ rest, strContain parent.chars child.chars = some rest →
    ∃ n, StrLen rest n ∧ parent.bytes = child.bytes ++ CString.bytes rest n
  reads : (strContainReads parent.chars child.chars).1 ≤ parent.len + 1 ∧
    (strContainReads parent.chars child.chars).2 ≤ child.len + 1

variable {parent child : UserStr} {n : ℕ}

/-- The loop of `strContain` goes to the first place where the strings differ. -/
lemma extent_ne_eq {p q : Chars} (hn : n < 2 ^ 32) (hne : p n ≠ q n) (heq : ∀ i < n, p i = q i) :
    extent 32 (fun i => p i != q i) = n + 1 :=
  extentFrom_eq (Nat.zero_le n) (by omega) (by simpa using hne) fun i _ hi => by
    simpa using heq i hi

lemma strContain_eq {p q : Chars} (hn : n < 2 ^ 32) (hne : p n ≠ q n) (heq : ∀ i < n, p i = q i) :
    strContain p q =
      if ¬isVisable (p n) then none else if q n = 0 then some fun j => p (n + j) else none := by
  unfold strContain
  rw [extent_ne_eq hn hne heq, Nat.add_sub_cancel]

/-- The bytes of the second string are those of the loop. -/
lemma strContainReads_snd (p q : Chars) :
    (strContainReads p q).2 = extent 32 fun i => p i != q i := by
  unfold strContainReads
  cases strContain p q <;> rfl

/-- Different strings differ at the latest where one of them ends. -/
lemma exists_ne (h : parent.bytes ≠ child.bytes) : ∃ n, n ≤ parent.len ∧ n ≤ child.len ∧
    parent.chars n ≠ child.chars n ∧ ∀ i < n, parent.chars i = child.chars i := by
  classical
  have hex : ∃ n, n ≤ parent.len ∧ n ≤ child.len ∧ parent.chars n ≠ child.chars n := by
    by_contra hno
    push Not at hno
    -- then the null bytes are at the same place, and the strings are equal
    have hlen : parent.len = child.len := by
      rcases Nat.lt_trichotomy parent.len child.len with hlt | heq | hgt
      · exact absurd ((hno _ le_rfl hlt.le).symm.trans parent.strLen.1) (child.strLen.2 _ hlt)
      · exact heq
      · exact absurd ((hno _ hgt.le le_rfl).trans child.strLen.1) (parent.strLen.2 _ hgt)
    refine h ?_
    rw [UserStr.bytes, UserStr.bytes, hlen]
    exact bytes_congr fun i hi => hno i (by omega) hi.le
  obtain ⟨hp, hc, hne⟩ := Nat.find_spec hex
  refine ⟨Nat.find hex, hp, hc, hne, fun i hi => ?_⟩
  by_contra hi'
  exact Nat.find_min hex hi ⟨by omega, by omega, hi'⟩

/-- A string that begins with another one. -/
lemma bytes_prefix_iff {s : List (BitVec 8)} : parent.bytes = child.bytes ++ s ↔
    (∀ i < child.len, parent.chars i = child.chars i) ∧ child.len ≤ parent.len ∧
      s = CString.bytes (fun i => parent.chars (child.len + i)) (parent.len - child.len) := by
  constructor
  · intro h
    have hlen := congrArg List.length h
    rw [List.length_append, UserStr.bytes, UserStr.bytes, length_bytes, length_bytes] at hlen
    have htake := congrArg (List.take child.len) h
    have hdrop := congrArg (List.drop child.len) h
    rw [UserStr.bytes, UserStr.bytes, bytes_take _ (by omega), List.take_left' (length_bytes _ _)] at htake
    rw [UserStr.bytes, UserStr.bytes, bytes_drop, List.drop_left' (length_bytes _ _)] at hdrop
    exact ⟨fun i hi => bytes_inj htake hi, by omega, hdrop.symm⟩
  · rintro ⟨heq, hle, rfl⟩
    rw [UserStr.bytes, UserStr.bytes, ← bytes_drop, ← bytes_congr heq, ← bytes_take _ hle,
      List.take_append_drop]

/-- Different strings are compared up to the first difference, which is not behind a null byte. -/
lemma completes_of_ne (h : parent.bytes ≠ child.bytes) : Completes parent child := by
  obtain ⟨n, hp, hc, hne, heq⟩ := exists_ne h
  have hb := parent.below
  have hext := extent_ne_eq (by omega) hne heq
  have hres := strContain_eq (by omega) hne heq
  by_cases hfound : isVisable (parent.chars n) ∧ child.chars n = 0
  · -- the difference is where `child` ends
    obtain ⟨hvis, h0⟩ := hfound
    obtain rfl : n = child.len := by
      by_contra hn
      exact child.strLen.2 n (by omega) h0
    rw [if_neg (not_not.mpr hvis), if_pos h0] at hres
    have hlt : child.len < parent.len := by
      refine lt_of_le_of_ne hp fun hn => hne ?_
      rw [h0, hn, parent.strLen.1]
    have hrest : StrLen (fun j => parent.chars (child.len + j)) (parent.len - child.len) := by
      refine ⟨?_, fun i hi => parent.strLen.2 _ (by omega)⟩
      have hend := parent.strLen.1
      rwa [← Nat.add_sub_cancel' hp] at hend
    refine ⟨?_, ?_, ?_⟩
    · rw [hres]
      refine iff_of_true rfl ⟨parent.chars child.len,
        (CString.bytes (fun i => parent.chars (child.len + i)) (parent.len - child.len)).tail, ?_, hvis⟩
      refine bytes_prefix_iff.mpr ⟨heq, hp, ?_⟩
      obtain ⟨k, hk⟩ : ∃ k, parent.len - child.len = k + 1 := ⟨parent.len - child.len - 1, by omega⟩
      rw [hk, CString.bytes, List.range_succ_eq_map]
      simp
    · intro rest hsome
      rw [hres] at hsome
      obtain rfl := Option.some.inj hsome
      exact ⟨_, hrest, bytes_prefix_iff.mpr ⟨heq, hp, rfl⟩⟩
    · simp only [strContainReads, hres, hext]
      rw [hrest.extent_eq (by omega)]
      omega
  · have hnone : strContain parent.chars child.chars = none := by
      rw [hres]
      split_ifs with hvis h0
      · exact absurd ⟨hvis, h0⟩ hfound
      · rfl
      · rfl
    refine ⟨?_, ?_, ?_⟩
    · rw [hnone]
      refine iff_of_false Bool.false_ne_true ?_
      rintro ⟨c, t, happ, hvis⟩
      -- such a rest would begin at the difference
      obtain ⟨heq', hle, ht⟩ := bytes_prefix_iff.mp happ
      obtain rfl : n = child.len := by
        by_contra hn
        exact hne (heq' n (by omega))
      have hk := congrArg (·[0]?) ht
      have hlt : 0 < parent.len - child.len := by
        have hlen := congrArg List.length ht
        rw [List.length_cons, length_bytes] at hlen
        omega
      simp only [CString.bytes, List.getElem?_cons_zero, List.getElem?_map,
        List.getElem?_range hlt, Option.map_some, Option.some.injEq, Nat.add_zero] at hk
      exact hfound ⟨hk ▸ hvis, child.strLen.1⟩
    · intro rest hsome
      rw [hnone] at hsome
      cases hsome
    · simp only [strContainReads, hnone, hext]
      omega

/-- Equal strings are compared on behind their null bytes. -/
lemma lt_extent_of_eq (h : parent.bytes = child.bytes) :
    child.len + 1 < extent 32 fun i => parent.chars i != child.chars i := by
  obtain ⟨heq, -, -⟩ := bytes_prefix_iff.mp (h.trans (List.append_nil _).symm)
  have hlen : parent.len = child.len := by
    have hl := congrArg List.length h
    rwa [UserStr.bytes, UserStr.bytes, length_bytes, length_bytes] at hl
  have hb := child.below
  refine lt_extentFrom (by omega) fun i _ hi => ?_
  rw [bne_eq_false_iff_eq]
  rcases (Nat.le_of_lt_succ hi).eq_or_lt with rfl | hlt
  · rw [child.strLen.1, ← hlen, parent.strLen.1]
  · exact heq i hlt

/-- **When `strContain` does what it is for**: the two strings are different. -/
theorem completes_iff (parent child : UserStr) :
    Completes parent child ↔ parent.bytes ≠ child.bytes := by
  refine ⟨fun h heq => ?_, completes_of_ne⟩
  have hlt := lt_extent_of_eq heq
  have hreads := h.reads.2
  rw [strContainReads_snd] at hreads
  omega

/-- The string `a` and behind it the byte `c`. -/
def letterThen (c : BitVec 8) : UserStr where
  chars i := if i = 0 then 97 else if i = 1 then 0 else if i = 2 then c else 0
  len := 1
  strLen := ⟨rfl, fun i hi => by
    obtain rfl := Nat.lt_one_iff.mp hi
    exact (by decide : (97 : BitVec 8) ≠ 0)⟩
  below := one_below

/-- Two arrays with the string `a` that differ in the byte behind it: the comparison goes on to this
byte, and takes it for the rest of a name. -/
theorem strContain_equal :
    ¬ ∀ parent child : UserStr,
      ((strContain parent.chars child.chars).isSome ↔
        ∃ c t, parent.bytes = child.bytes ++ c :: t ∧ isVisable c) ∧
      (strContainReads parent.chars child.chars).1 ≤ parent.len + 1 ∧
      (strContainReads parent.chars child.chars).2 ≤ child.len + 1 := by
  intro h
  obtain ⟨hsome, -⟩ := h (letterThen 98) (letterThen 0)
  have hres : strContain (letterThen 98).chars (letterThen 0).chars =
      some fun j => (letterThen 98).chars (2 + j) := by
    rw [strContain_eq (n := 2) (by decide) (by decide) (by decide), if_neg (by decide),
      if_pos (by decide)]
  rw [hres] at hsome
  obtain ⟨c, t, happ, -⟩ := hsome.mp rfl
  have hlen := congrArg List.length happ
  simp [UserStr.bytes, letterThen] at hlen

end MosVolca
