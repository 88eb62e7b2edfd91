import MosVolca.Lib.Paths
import MosVolca.Lib.Strings
import MosVolca.Library.WhileLoop

/-!
# `splitPath` on its arrays

`splitPath` of `lib/string.c` store by store, with the places that it writes. The loop over the first
component looks at its length before each character, but not before the null byte, and `nextPath` is
only written behind a slash.

## Main definitions

* `MosVolca.splitPathAt` — the function on arrays.
* `MosVolca.SplitsPath` — what it is for.

## Main results

* `MosVolca.splitPathAt_long`, `MosVolca.splitPathAt_last`, `MosVolca.splitPathAt_slash` — the three
  ways it ends.
* `MosVolca.splitPathAt_refines` — it is `splitPath` on the strings.
* `MosVolca.splitsPath_iff` — when it splits the path.
-/

namespace MosVolca

open CString WhileLoop

/-- The variables of `splitPath`, the value it returns, and the places it has written. -/
structure SplitVars where
  i : ℕ
  nexti : ℕ
  firDir : ℕ → Char8
  nextPath : ℕ → Char8
  ret : Option ℤ
  dirWrites : List ℕ
  nextWrites : List ℕ

/-- The variables at the beginning. -/
def splitVars (firDir nextPath : ℕ → Char8) : SplitVars where
  i := 0
  nexti := 0
  firDir := firDir
  nextPath := nextPath
  ret := none
  dirWrites := []
  nextWrites := []

/-- `firDir[i] = c`. -/
def SplitVars.putDir (v : SplitVars) (c : Char8) : SplitVars :=
  { v with firDir := Function.update v.firDir v.i c, dirWrites := v.dirWrites ++ [v.i] }

/-- `nextPath[nexti] = c`. -/
def SplitVars.putNext (v : SplitVars) (c : Char8) : SplitVars :=
  { v with
    nextPath := Function.update v.nextPath v.nexti c, nextWrites := v.nextWrites ++ [v.nexti] }

/-- A round of the loop over the first component. -/
def dirRound (pathName : ℕ → Char8) (v : SplitVars) : SplitVars :=
  if v.i ≥ maxnamelen then { v with ret := some (-1) }
  else { v.putDir (pathName v.i) with i := v.i + 1 }

/-- A round of the loop over the rest. -/
def nextRound (pathName : ℕ → Char8) (v : SplitVars) : SplitVars :=
  { v.putNext (pathName v.i) with nexti := v.nexti + 1, i := v.i + 1 }

/-- `splitPath`. -/
def splitPathAt (fuel : ℕ) (firDir nextPath pathName : ℕ → Char8) : Option SplitVars :=
  if pathName 0 = slash then some { splitVars firDir nextPath with ret := some (-1) }
  else do
    let v ← run (fun v => v.ret.isNone && (pathName v.i != slash && pathName v.i != 0))
      (dirRound pathName) fuel (splitVars firDir nextPath)
    if v.ret.isSome then pure v
    else
      let v := v.putDir 0
      if pathName v.i = 0 then pure { v with ret := some 0 }
      else do
        let v ← run (fun v => pathName v.i != 0) (nextRound pathName) fuel { v with i := v.i + 1 }
        pure { v.putNext 0 with ret := some 0 }

/-- The array holds the string. -/
def HoldsStr (a : ℕ → Char8) (l : List Char8) : Prop :=
  StrLen a l.length ∧ CString.bytes a l.length = l

/-- What `splitPath` is for, whatever is in the arrays before: it returns -1, or `firDir` holds the
first component and `nextPath` the rest behind a slash, or the empty string where there is none. It
writes to the `MAXNAMELEN` places of `firDir` and, for the rest, to `nextPath`. -/
def SplitsPath (path : UserStr) : Prop :=
  ∀ firDir nextPath fuel, path.len < fuel →
    ∃ v, splitPathAt fuel firDir nextPath path.chars = some v ∧ (∀ k ∈ v.dirWrites, k < maxnamelen) ∧
      (v.ret = some (-1) ∨ v.ret = some 0 ∧ ∃ first rest, HoldsStr v.firDir first ∧
        HoldsStr v.nextPath rest ∧ slash ∉ first ∧
        (path.bytes = first ++ slash :: rest ∨ path.bytes = first ∧ rest = []) ∧
        ∀ k ∈ v.nextWrites, k ≤ rest.length)

/-! ## The first component -/

/-- The characters before the first slash. -/
def UserStr.first (path : UserStr) : List Char8 := path.bytes.takeWhile (· != slash)

variable {path : UserStr} {firDir nextPath : ℕ → Char8} {rest : List Char8} {fuel i k : ℕ}
  {v : SplitVars}

/-- The path is its first component, or that comes before a slash. -/
lemma UserStr.cut (path : UserStr) :
    (path.bytes = path.first ∧ path.bytes.dropWhile (· != slash) = []) ∨
      ∃ rest, path.bytes = path.first ++ slash :: rest ∧
        path.bytes.dropWhile (· != slash) = slash :: rest := by
  have happ : path.first ++ path.bytes.dropWhile (· != slash) = path.bytes :=
    List.takeWhile_append_dropWhile
  cases hd : path.bytes.dropWhile (· != slash) with
  | nil =>
    rw [hd, List.append_nil] at happ
    exact Or.inl ⟨happ.symm, rfl⟩
  | cons x rest =>
    obtain rfl := eq_slash_of_dropWhile hd
    rw [hd] at happ
    exact Or.inr ⟨rest, happ.symm, rfl⟩

lemma UserStr.slash_notMem_first (path : UserStr) : slash ∉ path.first :=
  slash_notMem_takeWhile path.bytes

lemma UserStr.length_bytes (path : UserStr) : path.bytes.length = path.len :=
  CString.length_bytes _ _

lemma UserStr.first_le (path : UserStr) : path.first.length ≤ path.len := by
  have h := (List.takeWhile_prefix (l := path.bytes) (· != slash)).length_le
  rwa [path.length_bytes] at h

/-- The first component is in the first places. -/
lemma UserStr.first_eq (path : UserStr) :
    CString.bytes path.chars path.first.length = path.first := by
  have h := List.prefix_iff_eq_take.mp (List.takeWhile_prefix (l := path.bytes) (· != slash))
  rw [← bytes_take path.chars path.first_le]
  exact h.symm

lemma UserStr.ne_of_lt_first (h : i < path.first.length) :
    path.chars i ≠ slash ∧ path.chars i ≠ 0 := by
  have hmem : path.chars i ∈ path.first := by
    rw [← path.first_eq]
    exact List.mem_map.mpr ⟨i, List.mem_range.mpr h, rfl⟩
  refine ⟨fun hs => path.slash_notMem_first (hs ▸ hmem), path.strLen.2 i ?_⟩
  exact h.trans_le path.first_le

/-- Behind the first component is the end of the path. -/
lemma UserStr.chars_first_of_eq (h : path.bytes = path.first) :
    path.first.length = path.len ∧ path.chars path.first.length = 0 := by
  have hlen : path.first.length = path.len := by rw [← h, path.length_bytes]
  exact ⟨hlen, hlen ▸ path.strLen.1⟩

/-- Behind the first component is a slash, and the rest. -/
lemma UserStr.chars_first_of_slash (h : path.bytes = path.first ++ slash :: rest) :
    path.chars path.first.length = slash ∧ path.first.length + 1 + rest.length = path.len ∧
      CString.bytes (fun i => path.chars (path.first.length + 1 + i)) rest.length = rest := by
  have hlen : path.first.length + 1 + rest.length = path.len := by
    have hl := congrArg List.length h
    rw [path.length_bytes, List.length_append, List.length_cons] at hl
    omega
  have hslash : path.chars path.first.length = slash := by
    have hget := congrArg (·[path.first.length]?) h
    simpa [UserStr.bytes, CString.bytes, show path.first.length < path.len by omega] using hget
  have happ : path.bytes = (path.first ++ [slash]) ++ rest := by
    rw [h, List.append_assoc, List.singleton_append]
  have hdrop := congrArg (List.drop (path.first.length + 1)) happ
  rw [UserStr.bytes, bytes_drop, List.drop_left' (by simp)] at hdrop
  refine ⟨hslash, hlen, ?_⟩
  rwa [show path.len - (path.first.length + 1) = rest.length by omega] at hdrop

/-- A relative path has a first component before its first slash. -/
lemma UserStr.first_ne_nil (h0 : path.chars 0 ≠ slash)
    (h : path.bytes = path.first ++ slash :: rest) : path.first ≠ [] := fun hnil => by
  obtain ⟨hslash, -⟩ := UserStr.chars_first_of_slash h
  rw [hnil] at hslash
  exact h0 hslash

/-! ## The loops -/

/-- The loop over the first component has stored `k` characters. -/
structure FirstLoop (path : UserStr) (nextPath : ℕ → Char8) (k : ℕ) (v : SplitVars) : Prop where
  i_eq : v.i = k
  ret : v.ret = none
  bytes : CString.bytes v.firDir k = CString.bytes path.chars k
  writes : v.dirWrites = List.range k
  next : v.nextPath = nextPath ∧ v.nexti = 0 ∧ v.nextWrites = []

/-- One more character, if there is a place for it. -/
lemma FirstLoop.round (h : FirstLoop path nextPath k v) (hk : k < maxnamelen) :
    FirstLoop path nextPath (k + 1) (dirRound path.chars v) := by
  obtain ⟨hi, hret, hbytes, hw, hnext⟩ := h
  rw [dirRound, if_neg (by omega)]
  refine ⟨by simp only [hi], hret, ?_, ?_, hnext⟩
  · simp only [SplitVars.putDir]
    rw [hi, bytes_update_succ, hbytes, bytes_succ]
  · simp only [SplitVars.putDir]
    rw [hw, hi, List.range_succ]

/-- The condition of the loop: the first component goes on. -/
lemma FirstLoop.cond (h : FirstLoop path nextPath k v) :
    (v.ret.isNone && (path.chars v.i != slash && path.chars v.i != 0)) = true ↔
      path.chars k ≠ slash ∧ path.chars k ≠ 0 := by
  simp [h.ret, h.i_eq]

lemma firstLoop_zero (path : UserStr) (firDir nextPath : ℕ → Char8) :
    FirstLoop path nextPath 0 (splitVars firDir nextPath) :=
  ⟨rfl, rfl, rfl, rfl, rfl, rfl, rfl⟩

/-- The loop stops where the first component ends, if that is no longer than the array. -/
lemma exists_firstLoop (hn : path.first.length ≤ maxnamelen)
    (hend : path.chars path.first.length = slash ∨ path.chars path.first.length = 0)
    (firDir nextPath : ℕ → Char8) (hf : path.len < fuel) :
    ∃ v, run (fun v => v.ret.isNone && (path.chars v.i != slash && path.chars v.i != 0))
        (dirRound path.chars) fuel (splitVars firDir nextPath) = some v ∧
      FirstLoop path nextPath path.first.length v := by
  have hle := path.first_le
  have hgo : ∀ k v, FirstLoop path nextPath k v ∧ k ≤ path.first.length →
      (v.ret.isNone && (path.chars v.i != slash && path.chars v.i != 0)) = true →
        k < path.first.length := by
    rintro k v ⟨hv, hk⟩ hc
    refine lt_of_le_of_ne hk fun hkn => ?_
    obtain ⟨h1, h2⟩ := hv.cond.mp hc
    rw [hkn] at h1 h2
    exact hend.elim h1 h2
  obtain ⟨k, v, hrun, -, -, ⟨hv, hk⟩, hc⟩ := exists_run (n := path.first.length)
    (I := fun k v => FirstLoop path nextPath k v ∧ k ≤ path.first.length)
    (fun k v hv hc => by
      have hlt := hgo k v hv hc
      exact ⟨k + 1, by omega, hlt, hv.1.round (by omega), hlt⟩)
    ⟨firstLoop_zero path firDir nextPath, Nat.zero_le _⟩ (Nat.zero_le _) (by omega : _ < 0 + fuel)
  have hkn : k = path.first.length := by
    by_contra hne
    have hgo' := hv.cond.mpr (path.ne_of_lt_first (by omega : k < path.first.length))
    rw [hc] at hgo'
    cases hgo'
  exact ⟨v, hrun, hkn ▸ hv⟩

/-- The loop returns -1 where the first component is longer than the array. -/
lemma exists_firstLoop_long (hn : maxnamelen < path.first.length) (firDir nextPath : ℕ → Char8)
    (hf : path.len < fuel) :
    ∃ v, run (fun v => v.ret.isNone && (path.chars v.i != slash && path.chars v.i != 0))
        (dirRound path.chars) fuel (splitVars firDir nextPath) = some v ∧
      v.ret = some (-1) ∧ v.dirWrites = List.range maxnamelen := by
  have hle := path.first_le
  -- one round more than there are places: the one that returns
  obtain ⟨k, v, hrun, -, -, hv, hc⟩ := exists_run (n := maxnamelen + 1)
    (I := fun k v => FirstLoop path nextPath k v ∧ k ≤ maxnamelen ∨
      k = maxnamelen + 1 ∧ v.ret = some (-1) ∧ v.dirWrites = List.range maxnamelen)
    (c := fun v => v.ret.isNone && (path.chars v.i != slash && path.chars v.i != 0))
    (b := dirRound path.chars)
    (fun k v hv hc => by
      rcases hv with ⟨hv, hk⟩ | ⟨-, hret, -⟩
      · refine ⟨k + 1, by omega, by omega, ?_⟩
        rcases hk.lt_or_eq with hlt | rfl
        · exact Or.inl ⟨hv.round hlt, hlt⟩
        · refine Or.inr ⟨rfl, ?_⟩
          rw [dirRound, if_pos hv.i_eq.ge]
          exact ⟨rfl, hv.writes⟩
      · simp [hret] at hc)
    (Or.inl ⟨firstLoop_zero path firDir nextPath, Nat.zero_le _⟩) (Nat.zero_le _)
    (by omega : _ < 0 + fuel)
  rcases hv with ⟨hv, hk⟩ | ⟨-, hret, hw⟩
  · have hgo' := hv.cond.mpr (path.ne_of_lt_first (by omega : k < path.first.length))
    rw [hc] at hgo'
    cases hgo'
  · exact ⟨v, hrun, hret, hw⟩

/-- The loop over the rest has stored `k` characters. -/
structure RestLoop (path : UserStr) (w : SplitVars) (k : ℕ) (v : SplitVars) : Prop where
  i_eq : v.i = path.first.length + 1 + k
  nexti : v.nexti = k
  bytes : CString.bytes v.nextPath k =
    CString.bytes (fun i => path.chars (path.first.length + 1 + i)) k
  writes : v.nextWrites = List.range k
  dir : v.firDir = w.firDir ∧ v.dirWrites = w.dirWrites

lemma RestLoop.round {w : SplitVars} (h : RestLoop path w k v) :
    RestLoop path w (k + 1) (nextRound path.chars v) := by
  obtain ⟨hi, hnexti, hbytes, hw, hdir⟩ := h
  refine ⟨by simp only [nextRound, hi]; omega, by simp only [nextRound, hnexti], ?_, ?_, hdir⟩
  · simp only [nextRound, SplitVars.putNext]
    rw [hnexti, bytes_update_succ, hbytes, bytes_succ, hi]
  · simp only [nextRound, SplitVars.putNext]
    rw [hw, hnexti, List.range_succ]

/-- The loop stops at the end of the path. -/
lemma exists_restLoop {w : SplitVars} (h : path.bytes = path.first ++ slash :: rest)
    (hw : RestLoop path w 0 w) (hf : path.len < fuel) :
    ∃ v, run (fun v => path.chars v.i != 0) (nextRound path.chars) fuel w = some v ∧
      RestLoop path w rest.length v := by
  obtain ⟨-, hlen, -⟩ := UserStr.chars_first_of_slash h
  have hend : path.chars (path.first.length + 1 + rest.length) = 0 := hlen ▸ path.strLen.1
  obtain ⟨k, v, hrun, -, -, ⟨hv, hk⟩, hc⟩ := exists_run (n := rest.length)
    (I := fun k v => RestLoop path w k v ∧ k ≤ rest.length)
    (c := fun v => path.chars v.i != 0) (b := nextRound path.chars)
    (fun k v hv hc => by
      have hlt : k < rest.length := by
        refine lt_of_le_of_ne hv.2 fun hkn => ?_
        rw [bne_iff_ne, hv.1.i_eq, hkn] at hc
        exact hc hend
      exact ⟨k + 1, by omega, hlt, hv.1.round, hlt⟩)
    ⟨hw, Nat.zero_le _⟩ (Nat.zero_le _) (by omega : _ < 0 + fuel)
  have hkn : k = rest.length := by
    by_contra hne
    have hnz := path.strLen.2 (path.first.length + 1 + k) (by omega)
    rw [bne_eq_false_iff_eq, hv.i_eq] at hc
    exact hnz hc
  exact ⟨v, hrun, hkn ▸ hv⟩

/-! ## How it ends -/

/-- The first component, with its null byte behind it. -/
lemma FirstLoop.holds (h : FirstLoop path nextPath path.first.length v) :
    HoldsStr (v.putDir 0).firDir path.first ∧
      (v.putDir 0).dirWrites = List.range (path.first.length + 1) := by
  have hbytes : CString.bytes (v.putDir 0).firDir path.first.length = path.first := by
    rw [SplitVars.putDir, h.i_eq, bytes_update le_rfl, h.bytes, path.first_eq]
  refine ⟨⟨⟨?_, fun i hi => ?_⟩, hbytes⟩, ?_⟩
  · rw [SplitVars.putDir, h.i_eq]
    exact Function.update_self _ _ _
  · rw [bytes_inj (hbytes.trans path.first_eq.symm) hi]
    exact (UserStr.ne_of_lt_first hi).2
  · rw [SplitVars.putDir, h.writes, h.i_eq, List.range_succ]

/-- **A first component that is longer than the array** gives -1, after the array is full. -/
theorem splitPathAt_long (hn : maxnamelen < path.first.length) (firDir nextPath : ℕ → Char8)
    (hf : path.len < fuel) :
    ∃ v, splitPathAt fuel firDir nextPath path.chars = some v ∧ v.ret = some (-1) ∧
      v.dirWrites = List.range maxnamelen := by
  obtain ⟨v, hrun, hret, hw⟩ := exists_firstLoop_long hn firDir nextPath hf
  have h0 := (UserStr.ne_of_lt_first (by omega : 0 < path.first.length)).1
  refine ⟨v, ?_, hret, hw⟩
  rw [splitPathAt, if_neg h0, hrun, Option.bind_eq_bind, Option.bind_some, hret]
  rfl

/-- **A path of one component**: `nextPath` stays as it was. -/
theorem splitPathAt_last (hn : path.first.length ≤ maxnamelen) (h : path.bytes = path.first)
    (firDir nextPath : ℕ → Char8) (hf : path.len < fuel) :
    ∃ v, splitPathAt fuel firDir nextPath path.chars = some v ∧ v.ret = some 0 ∧
      v.dirWrites = List.range (path.first.length + 1) ∧ HoldsStr v.firDir path.first ∧
      v.nextPath = nextPath ∧ v.nextWrites = [] := by
  obtain ⟨hlen, hend⟩ := UserStr.chars_first_of_eq h
  obtain ⟨v, hrun, hv⟩ := exists_firstLoop hn (Or.inr hend) firDir nextPath hf
  obtain ⟨hholds, hw⟩ := hv.holds
  have h0 : path.chars 0 ≠ slash := by
    rcases Nat.eq_zero_or_pos path.first.length with hz | hpos
    · rw [hz] at hend
      rw [hend]
      decide
    · exact (UserStr.ne_of_lt_first hpos).1
  refine ⟨{ v.putDir 0 with ret := some 0 }, ?_, rfl, hw, hholds, hv.next.1, hv.next.2.2⟩
  have hi : path.chars (v.putDir 0).i = 0 := by
    have hi' : (v.putDir 0).i = path.first.length := hv.i_eq
    rw [hi', hend]
  rw [splitPathAt, if_neg h0, hrun, Option.bind_eq_bind, Option.bind_some, hv.ret,
    if_neg (by simp)]
  exact if_pos hi

/-- **A path with a slash behind its first component**: `nextPath` holds the rest. -/
theorem splitPathAt_slash (hn : path.first.length ≤ maxnamelen) (hne : path.first ≠ [])
    (h : path.bytes = path.first ++ slash :: rest) (firDir nextPath : ℕ → Char8)
    (hf : path.len < fuel) :
    ∃ v, splitPathAt fuel firDir nextPath path.chars = some v ∧ v.ret = some 0 ∧
      v.dirWrites = List.range (path.first.length + 1) ∧ HoldsStr v.firDir path.first ∧
      HoldsStr v.nextPath rest ∧ v.nextWrites = List.range (rest.length + 1) := by
  obtain ⟨hslash, hlen, hrest⟩ := UserStr.chars_first_of_slash h
  obtain ⟨v, hrun, hv⟩ := exists_firstLoop hn (Or.inl hslash) firDir nextPath hf
  obtain ⟨hholds, hw⟩ := hv.holds
  have h0 : path.chars 0 ≠ slash :=
    (UserStr.ne_of_lt_first (List.length_pos_of_ne_nil hne)).1
  have hstart : RestLoop path { v.putDir 0 with i := (v.putDir 0).i + 1 } 0
      { v.putDir 0 with i := (v.putDir 0).i + 1 } :=
    ⟨congrArg (· + 1) hv.i_eq, hv.next.2.1, rfl, hv.next.2.2, rfl, rfl⟩
  obtain ⟨w, hrun', hw'⟩ := exists_restLoop h hstart hf
  have hbytes : CString.bytes (w.putNext 0).nextPath rest.length = rest := by
    rw [SplitVars.putNext, hw'.nexti, bytes_update le_rfl, hw'.bytes, hrest]
  refine ⟨{ w.putNext 0 with ret := some 0 }, ?_, rfl, ?_, ?_, ⟨⟨?_, fun i hi => ?_⟩, hbytes⟩, ?_⟩
  · have hi : path.chars (v.putDir 0).i ≠ 0 := by
      have hi' : (v.putDir 0).i = path.first.length := hv.i_eq
      rw [hi', hslash]
      decide
    rw [splitPathAt, if_neg h0, hrun, Option.bind_eq_bind, Option.bind_some, hv.ret,
      if_neg (by simp)]
    dsimp only
    rw [if_neg hi, hrun']
    rfl
  · exact hw'.dir.2.trans hw
  · exact hw'.dir.1 ▸ hholds
  · simp only [SplitVars.putNext]
    rw [hw'.nexti, Function.update_self]
  · rw [bytes_inj (hbytes.trans hrest.symm) hi]
    exact path.strLen.2 _ (by omega)
  · simp only [SplitVars.putNext]
    rw [hw'.writes, hw'.nexti, List.range_succ]

/-- **On strings it is the function on strings**, for the string that `nextPath` holds before. -/
theorem splitPathAt_refines {stale : List Char8} (hstale : HoldsStr nextPath stale)
    (firDir : ℕ → Char8) (hf : path.len < fuel) :
    ∃ v, splitPathAt fuel firDir nextPath path.chars = some v ∧
      match splitPath stale path.bytes with
      | none => v.ret = some (-1)
      | some (dir, next) => v.ret = some 0 ∧ HoldsStr v.firDir dir ∧ HoldsStr v.nextPath next := by
  by_cases h0 : path.chars 0 = slash
  · have hhead : path.bytes.head? = some slash := by
      have hpos : 0 < path.len := by
        by_contra hz
        have hend := path.strLen.1
        rw [show path.len = 0 by omega, h0] at hend
        cases hend
      rw [← h0, List.head?_eq_getElem?]
      simp [UserStr.bytes, CString.bytes, hpos]
    refine ⟨_, if_pos h0, ?_⟩
    rw [splitPath, if_pos hhead]
  have hhead : path.bytes.head? ≠ some slash := by
    rcases path.cut with ⟨heq, -⟩ | ⟨rest, happ, -⟩
    · intro hs
      exact path.slash_notMem_first (heq ▸ List.mem_of_mem_head? hs)
    · rw [happ, List.head?_append_of_ne_nil _ (UserStr.first_ne_nil h0 happ)]
      exact fun hs => path.slash_notMem_first (List.mem_of_mem_head? hs)
  have hfirst : path.bytes.takeWhile (· != slash) = path.first := rfl
  unfold splitPath
  rw [if_neg hhead]
  simp only [hfirst]
  by_cases hlen : path.first.length > maxnamelen
  · obtain ⟨v, hv, hret, -⟩ := splitPathAt_long hlen firDir nextPath hf
    rw [if_pos hlen]
    exact ⟨v, hv, hret⟩
  · rw [if_neg hlen]
    rcases path.cut with ⟨heq, hdrop⟩ | ⟨rest, happ, hdrop⟩
    · obtain ⟨v, hv, hret, -, hdir, hnext, -⟩ :=
        splitPathAt_last (not_lt.mp hlen) heq firDir nextPath hf
      rw [hdrop]
      exact ⟨v, hv, hret, hdir, hnext ▸ hstale⟩
    · obtain ⟨v, hv, hret, -, hdir, hnext, -⟩ := splitPathAt_slash (not_lt.mp hlen)
        (UserStr.first_ne_nil h0 happ) happ firDir nextPath hf
      rw [hdrop]
      exact ⟨v, hv, hret, hdir, hnext⟩

/-- **When `splitPath` splits a path**: the first component is longer than `MAXNAMELEN`, or it is
shorter and comes before a slash. -/
theorem splitsPath_iff (path : UserStr) : SplitsPath path ↔
    maxnamelen < path.first.length ∨ path.first.length < maxnamelen ∧ slash ∈ path.bytes := by
  constructor
  · intro h
    by_contra hno
    obtain ⟨hle, hno⟩ := not_or.mp hno
    rw [not_lt] at hle
    rcases path.cut with ⟨heq, -⟩ | ⟨rest, happ, -⟩
    · -- nothing is stored to `nextPath`, where there need not be a string
      obtain ⟨v, hv, hret, -, -, hnext, -⟩ := splitPathAt_last hle heq (fun _ => 0) (fun _ => 1)
        (Nat.lt_succ_self path.len)
      obtain ⟨v', hv', -, hres⟩ := h (fun _ => 0) (fun _ => 1) (path.len + 1) (by omega)
      obtain rfl := Option.some.inj (hv.symm.trans hv')
      rcases hres with hneg | ⟨-, -, rest, -, ⟨⟨h0, -⟩, -⟩, -⟩
      · rw [hret] at hneg
        cases hneg
      · rw [hnext] at h0
        cases h0
    · -- the null byte comes behind the array
      have hmem : slash ∈ path.bytes := by
        rw [happ]
        exact List.mem_append_right _ List.mem_cons_self
      have hlen : path.first.length = maxnamelen :=
        le_antisymm hle (not_lt.mp fun hlt => hno ⟨hlt, hmem⟩)
      have hne : path.first ≠ [] := fun hnil => by
        rw [hnil] at hlen
        cases hlen
      obtain ⟨v, hv, -, hw, -⟩ := splitPathAt_slash hle hne happ (fun _ => 0) (fun _ => 1)
        (Nat.lt_succ_self path.len)
      obtain ⟨v', hv', hdir, -⟩ := h (fun _ => 0) (fun _ => 1) (path.len + 1) (by omega)
      obtain rfl := Option.some.inj (hv.symm.trans hv')
      have hlast : path.first.length ∈ v.dirWrites := by
        rw [hw]
        exact List.mem_range.mpr (Nat.lt_succ_self _)
      exact absurd (hdir _ hlast) (by omega)
  · intro h firDir nextPath fuel hf
    by_cases h0 : path.chars 0 = slash
    · exact ⟨_, if_pos h0, by simp [splitVars], Or.inl rfl⟩
    rcases h with hlong | ⟨hlt, hmem⟩
    · obtain ⟨v, hv, hret, hw⟩ := splitPathAt_long hlong firDir nextPath hf
      refine ⟨v, hv, fun k hk => ?_, Or.inl hret⟩
      rw [hw] at hk
      exact List.mem_range.mp hk
    · rcases path.cut with ⟨heq, -⟩ | ⟨rest, happ, -⟩
      · rw [heq] at hmem
        exact absurd hmem path.slash_notMem_first
      · obtain ⟨v, hv, hret, hw, hfirst, hrest, hnw⟩ :=
          splitPathAt_slash hlt.le (UserStr.first_ne_nil h0 happ) happ firDir nextPath hf
        refine ⟨v, hv, fun k hk => ?_, Or.inr ⟨hret, path.first, rest, hfirst, hrest,
          path.slash_notMem_first, Or.inl happ, fun k hk => ?_⟩⟩
        · rw [hw, List.mem_range] at hk
          omega
        · rw [hnw, List.mem_range] at hk
          omega

/-- The path `a`. -/
def oneLetter : UserStr where
  chars i := if i = 0 then 97 else 0
  len := 1
  strLen := ⟨rfl, fun i hi => by
    have h0 : i = 0 := by omega
    simp [h0]⟩
  below := one_below

/-- A path without a slash: `nextPath` keeps what was there, which need not even be a string. -/
theorem splitPath_one_letter :
    ¬ ∀ path : UserStr, path.chars 0 ≠ slash → SplitsPath path := by
  intro h
  obtain ⟨v, hv, -, hres⟩ := h oneLetter (by decide) (fun _ => 0) (fun _ => 1) 2 (by decide)
  obtain ⟨w, hw, hret, -, -, hnext, -⟩ := splitPathAt_last (show oneLetter.first.length ≤ _ by decide)
    (by decide) (fun _ => 0) (fun _ => 1) (by decide : 1 < 2)
  obtain rfl := Option.some.inj (hw.symm.trans hv)
  rcases hres with hneg | ⟨-, -, rest, -, ⟨⟨h0, -⟩, -⟩, -⟩
  · rw [hret] at hneg
    cases hneg
  · rw [hnext] at h0
    cases h0

end MosVolca
