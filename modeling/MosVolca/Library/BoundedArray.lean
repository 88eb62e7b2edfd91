import MosVolca.Library.CString

/-!
# Arrays of bounded length

An array with `n` places is a function on the natural numbers of which only the first `n` values are
there: what reads or writes another place fails. The functions on strings fail where they would
leave the array.

## Main definitions

* `BoundedArray.Stays` — a computation returns exactly under a condition.
* `BoundedArray.get`, `BoundedArray.put` — one place is read or written.
* `BoundedArray.copyStep` — one round of a loop that copies.
* `BoundedArray.str` — a string is read up to its null byte.
* `BoundedArray.strcpy`, `BoundedArray.strcat` — a string is copied to a place or behind a string.

## Main results

* `BoundedArray.Stays.bind` — two computations one after the other.
* `BoundedArray.foldlM_copyStep` — a loop that stays in its arrays is the loop without bounds.
* `BoundedArray.strcpy_stays`, `BoundedArray.strcat_stays` — when a string can be copied or
  appended.
-/

namespace BoundedArray

open CString

universe u

section Stays

variable {α β : Type u} {x : Option α} {y : α} {f : α → Option β} {cond cond' : Prop}
  {post : α → Prop} {post' : β → Prop}

/-- A computation that fails outside of its arrays **stays in them exactly under a condition**, and
then it leaves what it should. -/
def Stays (x : Option α) (cond : Prop) (post : α → Prop) : Prop :=
  (¬cond ∧ x = none) ∨ ∃ y, cond ∧ x = some y ∧ post y

lemma Stays.of_some (hc : cond) (hy : post y) : Stays (some y) cond post := Or.inr ⟨y, hc, rfl, hy⟩

lemma Stays.of_none (hc : ¬cond) : Stays none cond post := Or.inl ⟨hc, rfl⟩

lemma Stays.congr (h : Stays x cond post) (hc : cond ↔ cond') : Stays x cond' post :=
  propext hc ▸ h

/-- The condition is the one for a result. -/
lemma Stays.isSome_iff (h : Stays x cond post) : x.isSome ↔ cond := by
  rcases h with ⟨hno, rfl⟩ | ⟨y, hc, rfl, -⟩
  · exact iff_of_false (by simp) hno
  · exact iff_of_true rfl hc

/-- Two computations one after the other. -/
theorem Stays.bind {cond' : α → Prop} (h : Stays x cond post)
    (hf : ∀ y, post y → Stays (f y) (cond' y) post') :
    Stays (x >>= f) (cond ∧ ∀ y, x = some y → cond' y) post' := by
  rcases h with ⟨hno, rfl⟩ | ⟨y, hc, rfl, hy⟩
  · exact .of_none fun h => hno h.1
  · rcases hf y hy with ⟨hno, hz⟩ | ⟨z, hc', hz, hpost⟩
    · exact Or.inl ⟨fun h => hno (h.2 y rfl), hz⟩
    · refine Or.inr ⟨z, ⟨hc, fun y' hy' => ?_⟩, hz, hpost⟩
      cases hy'
      exact hc'

/-- The condition of the second computation is known before the first. -/
lemma Stays.bind_and (h : Stays x cond post) (hf : ∀ y, post y → Stays (f y) cond' post') :
    Stays (x >>= f) (cond ∧ cond') post' := by
  refine (h.bind hf).congr (and_congr_right fun hc => ⟨fun hall => ?_, fun hc' _ _ => hc'⟩)
  obtain ⟨y, hy⟩ := Option.isSome_iff_exists.mp (h.isSome_iff.mpr hc)
  exact hall y hy

/-- The second computation has no condition. -/
lemma Stays.bind_some (h : Stays x cond post) (hf : ∀ y, post y → ∃ z, f y = some z ∧ post' z) :
    Stays (x >>= f) cond post' := by
  have hand : Stays (x >>= f) (cond ∧ True) post' := h.bind_and fun y hy => by
    obtain ⟨z, hz, hpost⟩ := hf y hy
    exact hz ▸ .of_some trivial hpost
  exact hand.congr (and_iff_left trivial)

end Stays

section Places

variable {α : Type u} {m n i : ℕ} {a b : ℕ → α} {x : α}

/-- Place `i` is read. -/
def get (n : ℕ) (a : ℕ → α) (i : ℕ) : Option α := if i < n then some (a i) else none

/-- `x` is stored at place `i`. -/
def put (n : ℕ) (a : ℕ → α) (i : ℕ) (x : α) : Option (ℕ → α) :=
  if i < n then some (Function.update a i x) else none

lemma get_of_lt (h : i < n) : get n a i = some (a i) := if_pos h

lemma put_of_lt (h : i < n) : put n a i x = some (Function.update a i x) := if_pos h

lemma put_eq_none (h : n ≤ i) : put n a i x = none := if_neg h.not_gt

/-- A round of a loop that copies: a place is read, and its value goes to the next place of the
other array. -/
def copyStep (m n : ℕ) (a : ℕ → α) (x : (ℕ → α) × ℕ) (i : ℕ) : Option ((ℕ → α) × ℕ) := do
  let c ← get m a i
  let b ← put n x.1 x.2 c
  pure (b, x.2 + 1)

/-- **A loop that copies** and stays in its arrays. -/
theorem foldlM_copyStep {l : List ℕ} {k : ℕ} (hl : ∀ i ∈ l, i < m) (hk : k + l.length ≤ n) :
    l.foldlM (copyStep m n a) (b, k) =
      some (l.foldl (fun x i => (Function.update x.1 x.2 (a i), x.2 + 1)) (b, k)) := by
  induction l generalizing b k with
  | nil => rfl
  | cons i l ih =>
    rw [List.length_cons] at hk
    have hstep : copyStep m n a (b, k) i = some (Function.update b k (a i), k + 1) := by
      unfold copyStep
      rw [get_of_lt (hl i List.mem_cons_self)]
      exact congrArg (· >>= fun b => pure (b, k + 1)) (put_of_lt (show k < n by omega))
    rw [List.foldlM_cons, hstep, List.foldl_cons]
    exact ih (fun j hj => hl j (List.mem_cons_of_mem _ hj)) (by omega)

/-- A list of places is read. -/
lemma mapM_get {l : List ℕ} (hl : ∀ i ∈ l, i < n) : l.mapM (get n a) = some (l.map a) := by
  induction l with
  | nil => rfl
  | cons i l ih =>
    rw [List.mapM_cons, get_of_lt (hl i List.mem_cons_self),
      ih fun j hj => hl j (List.mem_cons_of_mem _ hj)]
    rfl

/-- The values of `l` are stored from place `k` on. -/
def writeAt (a : ℕ → α) (k : ℕ) (l : List α) : ℕ → α :=
  fun i => if k ≤ i then l.getD (i - k) (a i) else a i

lemma writeAt_last (a : ℕ → α) (k : ℕ) (l : List α) (x : α) :
    writeAt a k (l ++ [x]) (k + l.length) = x := by
  rw [writeAt, if_pos (Nat.le_add_right _ _), Nat.add_sub_cancel_left]
  simp

end Places

section Strings

variable {w n i k : ℕ} {a : ℕ → BitVec w} {s t : List (BitVec w)}

/-- The string at the beginning of the array. -/
def str (n : ℕ) (a : ℕ → BitVec w) : Option (List (BitVec w)) :=
  if ∃ i < n, a i = 0 then some (cstr a n) else none

lemma str_of_zero (hi : i < n) (h0 : a i = 0) : str n a = some (cstr a n) := if_pos ⟨i, hi, h0⟩

/-- A string ends at its first null byte. -/
lemma length_cstr_le_of_zero (hi : i < n) (h0 : a i = 0) : (cstr a n).length ≤ i := by
  obtain ⟨m, hm, hlen⟩ := exists_strLen ⟨i, hi, h0⟩
  rw [hlen.length_cstr hm]
  by_contra hlt
  exact hlen.2 i (by omega) h0

/-- `strcpy` to place `k` of an array. -/
def strcpy (n : ℕ) (a : ℕ → BitVec w) (k : ℕ) (src : ℕ → BitVec w) : Option (ℕ → BitVec w) := do
  let s ← str (n - k) src
  pure (writeAt a k (s ++ [0]))

/-- **`strcpy`** stays in the array if the string and its null byte fit behind the place. -/
theorem strcpy_stays (n : ℕ) (a : ℕ → BitVec w) (k : ℕ) (src : ℕ → BitVec w) :
    Stays (strcpy n a k src) (∃ i, k + i < n ∧ src i = 0) fun b =>
      ∃ i, k ≤ i ∧ i < n ∧ b i = 0 := by
  have hiff : (∃ i < n - k, src i = 0) ↔ ∃ i, k + i < n ∧ src i = 0 :=
    exists_congr fun i => and_congr_left fun _ => by omega
  refine Stays.congr ?_ hiff
  unfold strcpy str
  split_ifs with h
  · refine Stays.of_some h ?_
    obtain ⟨j, hj, h0⟩ := h
    have hlen := length_cstr_le_of_zero hj h0
    exact ⟨k + (cstr src (n - k)).length, by omega, by omega, writeAt_last _ _ _ _⟩
  · exact Stays.of_none h

/-- `strcat`. -/
def strcat (n : ℕ) (a : ℕ → BitVec w) (t : List (BitVec w)) : Option (ℕ → BitVec w) := do
  let s ← str n a
  if s.length + t.length < n then some (writeAt a s.length (t ++ [0])) else none

/-- **`strcat`** stays in the array if the two strings and the null byte fit. -/
theorem strcat_stays (hi : i < n) (h0 : a i = 0) (t : List (BitVec w)) :
    Stays (strcat n a t) ((cstr a n).length + t.length < n) fun b => ∃ j < n, b j = 0 := by
  unfold strcat
  rw [str_of_zero hi h0]
  simp only [Option.bind_eq_bind, Option.bind_some]
  split_ifs with h
  · exact Stays.of_some h ⟨_, h, writeAt_last _ _ _ _⟩
  · exact Stays.of_none h

end Strings

end BoundedArray
