import MosVolca.Kern.UserMode
import MosVolca.Library.CString

/-!
# The table of shell variables

The table `vars` as what it stands for: an entry has a name, a value, an owner and a permission,
and the calls search it in the order of the indices. The calls on the bytes do to the table what
the operations of this file do, as long as the strings end within their fields.

## Main definitions

* `MosVolca.VarEntry`, `MosVolca.VarTable` — the entries, and the table.
* `MosVolca.VarTable.find`, `MosVolca.VarTable.slot` — `checkVar`.
* `MosVolca.VarTable.declare`, `MosVolca.VarTable.unset`, `MosVolca.VarTable.get` — the operations.
* `MosVolca.varTable`, `MosVolca.WellFormedVars` — the table that the bytes hold.

## Main results

* `MosVolca.sysDeclareVar_table`, `MosVolca.sysUnsetVar_table`, `MosVolca.sysGetVar_table` — the
  calls refine the operations.
-/

namespace MosVolca

open CString ByteLoop

/-- An element of `vars`. Its name is empty if it is not used. -/
structure VarEntry where
  name : List (BitVec 8)
  value : List (BitVec 8)
  shellId : Word
  perm : Word

/-- The elements of `vars`. -/
abbrev VarTable := ℕ → VarEntry

namespace VarTable

variable (T : VarTable) (a : Word) (name : List (BitVec 8))

/-- The shell `a` finds the name in entry `i`. -/
def sees (i : ℕ) : Bool :=
  (T i).name != [] && (T i).name == name && ((T i).shellId == 0 || (T i).shellId == a)

/-- The first entry in which the shell finds the name. -/
def find : Option ℕ := (List.range UserKern.maxVarNum).find? (T.sees a name)

/-- The entry that `sys_declare_var` writes: the one with the name, or the first unused one. -/
def slot : Option ℕ :=
  (T.find a name).or ((List.range UserKern.maxVarNum).find? fun i => (T i).name == [])

/-- The entry cannot be written. -/
def ReadOnly (i : ℕ) : Prop := (T i).perm &&& UserKern.varRdonly ≠ 0

instance (i : ℕ) : Decidable (T.ReadOnly i) := by
  unfold ReadOnly
  infer_instance

/-- The owner of a variable that the shell declares. -/
def owner (isGlobal : Word) : Word := if isGlobal ≠ 0 then 0 else a

/-- `sys_declare_var`. -/
def declare (value : List (BitVec 8)) (perm isGlobal : Word) : Word × VarTable :=
  match T.slot a name with
  | none => (-1, T)
  | some r =>
    if T.ReadOnly r then (-2, T)
    else (0, Function.update T r ⟨name, value, owner a isGlobal, perm⟩)

/-- `sys_unset_var`. -/
def unset : Word × VarTable :=
  match T.find a name with
  | none => (-1, T)
  | some r =>
    if T.ReadOnly r then (-2, T) else (0, Function.update T r { T r with name := [] })

/-- The value that `sys_get_var` finds. -/
def get : Option (List (BitVec 8)) := (T.find a name).map fun i => (T i).value

end VarTable

/-- The table that the bytes from `vars` on hold. -/
def varTable (vars : ℕ → BitVec 8) : VarTable := fun i =>
  { name := cstr (fun j => vars (UserKern.nameOff i + j)) varNameLen
    value := cstr (fun j => vars (UserKern.valueOff i + j)) varValueLen
    shellId := wordOf vars (UserKern.shellIdOff i)
    perm := wordOf vars (UserKern.permOff i) }

/-- The strings of the table end within their fields. -/
def WellFormedVars (vars : ℕ → BitVec 8) : Prop :=
  ∀ i, (∃ j < varNameLen, vars (UserKern.nameOff i + j) = 0) ∧
    ∃ j < varValueLen, vars (UserKern.valueOff i + j) = 0

variable {u u' : UserKern} {c : EnvPtr} {va : Word} {i r : ℕ} {vars : ℕ → BitVec 8}
  {p q : ℕ → BitVec 8}

/-! ## Comparing names -/

/-- `strcmp` of a string that ends within `n` bytes with any other. -/
lemma strcmpEq_iff {m n : ℕ} (h : StrLen p m) (hm : m < n) (hn : n ≤ 2 ^ 32) :
    strcmpEq p q = true ↔ cstr p n = cstr q n := by
  rw [cstr_eq_iff h hm]
  by_cases heq : ∀ i ≤ m, q i = p i
  · have hext : strcmpExtent p q = m + 1 := by
      refine extentFrom_eq (Nat.zero_le m) (by omega) ?_ fun j _ hj => ?_
      · simp [strcmpStop, h.1]
      · simpa [strcmpStop, heq j hj.le] using h.2 j hj
    refine iff_of_true ?_ heq
    rw [strcmpEq, hext, Nat.add_sub_cancel, heq m le_rfl]
    exact beq_self_eq_true _
  · refine iff_of_false ?_ heq
    -- the loop ends at the first place where they differ
    have hex : ∃ i, i ≤ m ∧ q i ≠ p i := by
      push Not at heq
      exact heq
    classical
    obtain ⟨hle, hne⟩ := Nat.find_spec hex
    have hext : strcmpExtent p q = Nat.find hex + 1 := by
      refine extentFrom_eq (Nat.zero_le _) (by omega) ?_ fun j _ hj => ?_
      · simp [strcmpStop, Ne.symm hne]
      · have hsame : q j = p j := by
          by_contra hc
          exact Nat.find_min hex hj ⟨by omega, hc⟩
        simpa [strcmpStop, hsame] using h.2 j (by omega)
    rw [strcmpEq, hext, Nat.add_sub_cancel, beq_iff_eq]
    exact Ne.symm hne

lemma WellFormedVars.name_strLen (h : WellFormedVars u.vars) (i : ℕ) :
    ∃ m < varNameLen, StrLen (u.name i) m := exists_strLen (h i).1

/-- `checkVar` looks for an entry that the shell sees. -/
lemma sees_iff (h : WellFormedVars u.vars) (c : EnvPtr) (va : Word) (i : ℕ) :
    (varTable u.vars).sees (u.kern.envs c).shellId (cstr (bytesAt u.user va) varNameLen) i = true ↔
      u.name i 0 ≠ 0 ∧ strcmpEq (u.name i) (bytesAt u.user va) = true ∧ u.isAllow c i = true := by
  obtain ⟨m, hm, hlen⟩ := h.name_strLen i
  rw [strcmpEq_iff hlen hm (by decide), VarTable.sees, Bool.and_eq_true, Bool.and_eq_true,
    bne_iff_ne, beq_iff_eq, and_assoc]
  exact and_congr (not_congr (cstr_eq_nil_iff (by decide))) Iff.rfl

/-- **`checkVar`** finds what the table says. -/
lemma checkVarLoop_table (h : WellFormedVars u.vars) (c : EnvPtr) (va : Word) (needfill : Bool)
    (l : List ℕ) (empty : Option ℕ) :
    (UserKern.checkVarLoop c va needfill l empty u).1 =
      (l.find? ((varTable u.vars).sees (u.kern.envs c).shellId
        (cstr (bytesAt u.user va) varNameLen))).or
        (empty.or (if needfill then l.find? fun i => (varTable u.vars i).name == [] else none)) := by
  induction l generalizing empty u with
  | nil => cases empty <;> cases needfill <;> rfl
  | cons i l ih =>
    have hnil : (varTable u.vars i).name = [] ↔ u.name i 0 = 0 := cstr_eq_nil_iff (by decide)
    rw [UserKern.checkVarLoop]
    by_cases h0 : u.name i 0 = 0
    · have hsees : (varTable u.vars).sees (u.kern.envs c).shellId
          (cstr (bytesAt u.user va) varNameLen) i = false := by
        rw [Bool.eq_false_iff, ne_eq, sees_iff h]
        exact fun hc => hc.1 h0
      rw [if_pos h0, ih h, List.find?_cons_of_neg (by simp [hsees])]
      congr 1
      cases needfill with
      | false => simp
      | true =>
        rw [if_pos rfl, if_pos rfl, List.find?_cons_of_pos (by simp [hnil.mpr h0])]
        cases empty <;> simp
    · rw [if_neg h0]
      simp only
      have hne : ((varTable u.vars i).name == []) = false := by
        rw [beq_eq_false_iff_ne]
        exact mt hnil.mp h0
      by_cases hm : (strcmpEq (u.name i) (bytesAt u.user va) && u.isAllow c i) = true
      · have hsees := (sees_iff h c va i).mpr ⟨h0, Bool.and_eq_true_iff.mp hm⟩
        rw [List.find?_cons_of_pos hsees]
        have hm' : (strcmpEq ((u.touch va (strcmpExtent (u.name i) (bytesAt u.user va))).name i)
            (bytesAt (u.touch va (strcmpExtent (u.name i) (bytesAt u.user va))).user va) &&
            (u.touch va (strcmpExtent (u.name i) (bytesAt u.user va))).isAllow c i) = true := hm
        rw [if_pos hm']
        rfl
      · have hsees : ¬ (varTable u.vars).sees (u.kern.envs c).shellId
            (cstr (bytesAt u.user va) varNameLen) i = true := by
          rw [sees_iff h]
          exact fun hc => hm (Bool.and_eq_true_iff.mpr hc.2)
        rw [List.find?_cons_of_neg hsees]
        have hm' : ¬ (strcmpEq ((u.touch va (strcmpExtent (u.name i) (bytesAt u.user va))).name i)
            (bytesAt (u.touch va (strcmpExtent (u.name i) (bytesAt u.user va))).user va) &&
            (u.touch va (strcmpExtent (u.name i) (bytesAt u.user va))).isAllow c i) = true := hm
        rw [if_neg hm']
        refine (ih (u := u.touch va _) h empty).trans ?_
        rw [List.find?_cons_of_neg (by simp [hne])]
        rfl

/-- `checkVar`, as the calls use it. -/
lemma checkVar_table (h : WellFormedVars u.vars) (c : EnvPtr) (va : Word) (needfill : Bool) :
    ∃ l, u.checkVar c va needfill =
      (if needfill then (varTable u.vars).slot (u.kern.envs c).shellId
          (cstr (bytesAt u.user va) varNameLen)
        else (varTable u.vars).find (u.kern.envs c).shellId (cstr (bytesAt u.user va) varNameLen),
        { u with touched := l }) := by
  obtain ⟨l, hl, -⟩ := checkVar_below u c va needfill
  refine ⟨l, Prod.ext_iff.mpr ⟨?_, hl⟩⟩
  rw [UserKern.checkVar, checkVarLoop_table h, Option.none_or, VarTable.slot, VarTable.find]
  cases needfill with
  | false => rw [if_neg Bool.false_ne_true, if_neg Bool.false_ne_true, Option.or_none]
  | true => rw [if_pos rfl, if_pos rfl]

/-! ## Writing an entry -/

/-- `n` bytes are written at `off`. -/
def putBytes (vars : ℕ → BitVec 8) (off n : ℕ) (src : ℕ → BitVec 8) : ℕ → BitVec 8 := fun a =>
  if off ≤ a ∧ a < off + n then src (a - off) else vars a

lemma putBytes_add {off n j : ℕ} {src : ℕ → BitVec 8} (hj : j < n) :
    putBytes vars off n src (off + j) = src j := by
  rw [putBytes, if_pos ⟨by omega, by omega⟩, Nat.add_sub_cancel_left]

lemma putBytes_of_disjoint {off n a : ℕ} {src : ℕ → BitVec 8} (h : a < off ∨ off + n ≤ a) :
    putBytes vars off n src a = vars a := if_neg (by omega)

/-- Entry `i` is a part of the array. -/
lemma varTable_congr {vars' : ℕ → BitVec 8}
    (h : ∀ a, i * UserKern.sizeofVar ≤ a → a < i * UserKern.sizeofVar + UserKern.sizeofVar →
      vars' a = vars a) : varTable vars' i = varTable vars i := by
  have hname : ∀ j < varNameLen, vars' (UserKern.nameOff i + j) = vars (UserKern.nameOff i + j) :=
    fun j hj => by
      simp only [varNameLen] at hj
      exact h _ (by simp only [UserKern.nameOff]; omega)
        (by simp only [UserKern.nameOff, UserKern.sizeofVar]; omega)
  have hvalue : ∀ j < varValueLen,
      vars' (UserKern.valueOff i + j) = vars (UserKern.valueOff i + j) := fun j hj => by
    simp only [varValueLen] at hj
    exact h _ (by simp only [UserKern.valueOff]; omega)
      (by simp only [UserKern.valueOff, UserKern.sizeofVar]; omega)
  have hword : ∀ off, i * UserKern.sizeofVar ≤ off →
      off + 4 ≤ i * UserKern.sizeofVar + UserKern.sizeofVar → wordOf vars' off = wordOf vars off :=
    fun off h1 h2 => by
      rw [wordOf, wordOf, h (off + 3) (by omega) (by omega), h (off + 2) (by omega) (by omega),
        h (off + 1) (by omega) (by omega), h off h1 (by omega)]
  unfold varTable cstr
  rw [List.map_congr_left fun j hj => hname j (List.mem_range.mp hj),
    List.map_congr_left fun j hj => hvalue j (List.mem_range.mp hj),
    hword (UserKern.shellIdOff i) (by simp only [UserKern.shellIdOff]; omega)
      (by simp only [UserKern.shellIdOff, UserKern.sizeofVar]; omega),
    hword (UserKern.permOff i) (by simp only [UserKern.permOff]; omega)
      (by simp only [UserKern.permOff, UserKern.sizeofVar]; omega)]

/-- The bytes after the strings `s` and `v` and the words `perm` and `shell` have been stored in
entry `r`. -/
def writeEntry (vars : ℕ → BitVec 8) (r : ℕ) (s v : ℕ → BitVec 8) (perm shell : Word) :
    ℕ → BitVec 8 :=
  let vars := putBytes vars (UserKern.nameOff r) (strExtent s) s
  let vars := putBytes vars (UserKern.valueOff r) (strExtent v) v
  let vars := putBytes vars (UserKern.permOff r) 4 (wordByte perm)
  putBytes vars (UserKern.shellIdOff r) 4 (wordByte shell)

section WriteEntry

variable {s v : ℕ → BitVec 8} {m n : ℕ} (hs : StrLen s m) (hm : m < varNameLen) (hv : StrLen v n)
  (hn : n < varValueLen) (perm shell : Word)

include hs hm hv hn

/-- The bytes of the entry. -/
lemma writeEntry_bytes (vars : ℕ → BitVec 8) (r : ℕ) :
    (∀ j ≤ m, writeEntry vars r s v perm shell (UserKern.nameOff r + j) = s j) ∧
      (∀ j ≤ n, writeEntry vars r s v perm shell (UserKern.valueOff r + j) = v j) ∧
      (∀ j < 4, writeEntry vars r s v perm shell (UserKern.permOff r + j) = wordByte perm j) ∧
      (∀ j < 4, writeEntry vars r s v perm shell (UserKern.shellIdOff r + j) = wordByte shell j) ∧
      ∀ a, (a < r * UserKern.sizeofVar ∨ r * UserKern.sizeofVar + UserKern.sizeofVar ≤ a) →
        writeEntry vars r s v perm shell a = vars a := by
  have hsx : strExtent s = m + 1 := hs.extent_eq (by simp only [varNameLen] at hm; omega)
  have hvx : strExtent v = n + 1 := hv.extent_eq (by simp only [varValueLen] at hn; omega)
  simp only [varNameLen] at hm
  simp only [varValueLen] at hn
  unfold writeEntry
  simp only [hsx, hvx, UserKern.nameOff, UserKern.valueOff, UserKern.permOff, UserKern.shellIdOff,
    UserKern.sizeofVar]
  clear hsx hvx
  generalize r * 1160 = base
  refine ⟨fun j hj => ?_, fun j hj => ?_, fun j hj => ?_, fun j hj => ?_, fun a ha => ?_⟩
  · rw [putBytes_of_disjoint (by omega), putBytes_of_disjoint (by omega),
      putBytes_of_disjoint (by omega), putBytes_add (by omega)]
  · rw [putBytes_of_disjoint (by omega), putBytes_of_disjoint (by omega), putBytes_add (by omega)]
  · rw [putBytes_of_disjoint (by omega), putBytes_add (by omega)]
  · rw [putBytes_add (by omega)]
  · rw [putBytes_of_disjoint (by omega), putBytes_of_disjoint (by omega),
      putBytes_of_disjoint (by omega), putBytes_of_disjoint (by omega)]

/-- The table after an entry has been written. -/
lemma varTable_writeEntry : varTable (writeEntry vars r s v perm shell) =
    Function.update (varTable vars) r ⟨cstr s varNameLen, cstr v varValueLen, shell, perm⟩ := by
  obtain ⟨h1, h2, h3, h4, h5⟩ := writeEntry_bytes hs hm hv hn perm shell vars r
  funext i
  by_cases hi : i = r
  · subst hi
    rw [Function.update_self]
    unfold varTable
    rw [(cstr_eq_iff hs hm).mpr h1, (cstr_eq_iff hv hn).mpr h2, wordOf_eq h3, wordOf_eq h4]
  · rw [Function.update_of_ne hi]
    refine varTable_congr fun a ha ha' => h5 a ?_
    rcases Nat.lt_or_gt_of_ne hi with hlt | hlt
    · have := Nat.mul_le_mul_right UserKern.sizeofVar hlt
      rw [Nat.succ_mul] at this
      omega
    · have := Nat.mul_le_mul_right UserKern.sizeofVar hlt
      rw [Nat.succ_mul] at this
      omega

/-- An entry with strings that fit keeps the table in order. -/
lemma wellFormed_writeEntry (h : WellFormedVars vars) :
    WellFormedVars (writeEntry vars r s v perm shell) := by
  obtain ⟨h1, h2, -, -, h5⟩ := writeEntry_bytes hs hm hv hn perm shell vars r
  intro i
  by_cases hi : i = r
  · subst hi
    exact ⟨⟨m, hm, (h1 m le_rfl).trans hs.1⟩, n, hn, (h2 n le_rfl).trans hv.1⟩
  · have hout : ∀ a, i * UserKern.sizeofVar ≤ a → a < i * UserKern.sizeofVar + UserKern.sizeofVar →
        writeEntry vars r s v perm shell a = vars a := fun a ha ha' => by
      refine h5 a ?_
      rcases Nat.lt_or_gt_of_ne hi with hlt | hlt
      all_goals
        have := Nat.mul_le_mul_right UserKern.sizeofVar hlt
        rw [Nat.succ_mul] at this
        omega
    obtain ⟨⟨j, hj, hz⟩, j', hj', hz'⟩ := h i
    refine ⟨⟨j, hj, (hout _ ?_ ?_).trans hz⟩, j', hj', (hout _ ?_ ?_).trans hz'⟩
    all_goals
      simp only [varNameLen, varValueLen, UserKern.nameOff, UserKern.valueOff,
        UserKern.sizeofVar] at hj hj' ⊢
      omega

end WriteEntry

/-- The bytes after the name of entry `r` has been made empty. -/
def clearName (vars : ℕ → BitVec 8) (r : ℕ) : ℕ → BitVec 8 :=
  putBytes vars (UserKern.nameOff r) 1 fun _ => 0

lemma clearName_self (r : ℕ) : clearName vars r (UserKern.nameOff r) = 0 := by
  rw [clearName, putBytes, if_pos ⟨le_rfl, Nat.lt_succ_self _⟩]

lemma clearName_of_ne {a : ℕ} (h : a ≠ UserKern.nameOff r) : clearName vars r a = vars a :=
  putBytes_of_disjoint (by omega)

/-- The table after the name of an entry has been made empty. -/
lemma varTable_clearName (r : ℕ) : varTable (clearName vars r) =
    Function.update (varTable vars) r { varTable vars r with name := [] } := by
  funext i
  by_cases hi : i = r
  · subst hi
    rw [Function.update_self]
    have hlt : ∀ a, i * UserKern.sizeofVar < a → clearName vars i a = vars a := fun a ha =>
      clearName_of_ne (by simp only [UserKern.nameOff]; omega)
    have hword : ∀ off, i * UserKern.sizeofVar < off →
        wordOf (clearName vars i) off = wordOf vars off := fun off hoff => by
      rw [wordOf, wordOf, hlt _ (by omega), hlt _ (by omega), hlt _ (by omega), hlt _ (by omega)]
    have hval : (fun j => clearName vars i (UserKern.valueOff i + j)) =
        fun j => vars (UserKern.valueOff i + j) := funext fun j =>
      hlt _ (by simp only [UserKern.valueOff]; omega)
    have hname : cstr (fun j => clearName vars i (UserKern.nameOff i + j)) varNameLen = [] := by
      rw [cstr_eq_nil_iff (by decide), Nat.add_zero, clearName_self]
    unfold varTable
    rw [hname, hval, hword _ (by simp only [UserKern.shellIdOff]; omega),
      hword _ (by simp only [UserKern.permOff]; omega)]
  · rw [Function.update_of_ne hi]
    refine varTable_congr fun a ha ha' => clearName_of_ne fun he => hi ?_
    simp only [UserKern.nameOff, UserKern.sizeofVar] at he ha ha'
    omega

/-- An entry without a name keeps the table in order. -/
lemma wellFormed_clearName (h : WellFormedVars vars) (r : ℕ) : WellFormedVars (clearName vars r) := by
  intro i
  refine ⟨?_, ?_⟩
  · by_cases hi : i = r
    · exact ⟨0, by decide, by rw [Nat.add_zero, hi, clearName_self]⟩
    · obtain ⟨j, hj, hz⟩ := (h i).1
      refine ⟨j, hj, (clearName_of_ne fun he => hi ?_).trans hz⟩
      simp only [UserKern.nameOff, UserKern.sizeofVar, varNameLen] at he hj
      omega
  · obtain ⟨j, hj, hz⟩ := (h i).2
    refine ⟨j, hj, (clearName_of_ne fun he => ?_).trans hz⟩
    simp only [UserKern.nameOff, UserKern.valueOff, UserKern.sizeofVar, varValueLen] at he hj
    omega

/-! ## The calls -/

/-- The name or the value at a user address. -/
def UserKern.nameAt (u : UserKern) (va : Word) : List (BitVec 8) := cstr (bytesAt u.user va) varNameLen
def UserKern.valueAt (u : UserKern) (va : Word) : List (BitVec 8) :=
  cstr (bytesAt u.user va) varValueLen

/-- **`sys_declare_var`** on a table and strings that are well formed. -/
theorem sysDeclareVar_table {value perm isGlobal : Word} (hcur : u.kern.curenv = some c)
    (h : WellFormedVars u.vars) (hname : Fits u va varNameLen) (hvalue : Fits u value varValueLen) :
    ∃ r u', u.sysDeclareVar va value perm isGlobal = .ok (r, u') ∧ WellFormedVars u'.vars ∧
      (r, varTable u'.vars) = (varTable u.vars).declare (u.kern.envs c).shellId (u.nameAt va)
        (u.valueAt value) perm isGlobal := by
  obtain ⟨l, hl⟩ := checkVar_table h c va true
  rw [if_pos rfl] at hl
  unfold UserKern.sysDeclareVar VarTable.declare
  simp only [hcur, deref, pure_eq_ok, ok_bind, hl, UserKern.nameAt]
  rcases (varTable u.vars).slot (u.kern.envs c).shellId (cstr (bytesAt u.user va) varNameLen)
    with _ | r
  · exact ⟨-1, _, rfl, h, rfl⟩
  by_cases hro : (varTable u.vars).ReadOnly r
  · have hro' : UserKern.perm { u with touched := l } r &&& UserKern.varRdonly ≠ 0 := hro
    simp only [if_pos hro', if_pos hro]
    exact ⟨-2, _, rfl, h, rfl⟩
  · have hro' : ¬ UserKern.perm { u with touched := l } r &&& UserKern.varRdonly ≠ 0 := hro
    simp only [if_neg hro', if_neg hro]
    obtain ⟨m, hm, hs⟩ := exists_strLen hname
    obtain ⟨n, hn, hv⟩ := exists_strLen hvalue
    refine ⟨0, _, rfl, wellFormed_writeEntry hs hm hv hn perm _ h, Prod.ext_iff.mpr ⟨rfl, ?_⟩⟩
    exact varTable_writeEntry hs hm hv hn perm _

/-- **`sys_unset_var`** on a well-formed table. -/
theorem sysUnsetVar_table (hcur : u.kern.curenv = some c) (h : WellFormedVars u.vars) :
    ∃ r u', u.sysUnsetVar va = .ok (r, u') ∧ WellFormedVars u'.vars ∧
      (r, varTable u'.vars) =
        (varTable u.vars).unset (u.kern.envs c).shellId (u.nameAt va) := by
  obtain ⟨l, hl⟩ := checkVar_table h c va false
  rw [if_neg Bool.false_ne_true] at hl
  unfold UserKern.sysUnsetVar VarTable.unset
  simp only [hcur, deref, pure_eq_ok, ok_bind, hl, UserKern.nameAt]
  rcases (varTable u.vars).find (u.kern.envs c).shellId (cstr (bytesAt u.user va) varNameLen)
    with _ | r
  · exact ⟨-1, _, rfl, h, rfl⟩
  by_cases hro : (varTable u.vars).ReadOnly r
  · have hro' : UserKern.perm { u with touched := l } r &&& UserKern.varRdonly ≠ 0 := hro
    simp only [if_pos hro', if_pos hro]
    exact ⟨-2, _, rfl, h, rfl⟩
  · have hro' : ¬ UserKern.perm { u with touched := l } r &&& UserKern.varRdonly ≠ 0 := hro
    simp only [if_neg hro', if_neg hro]
    exact ⟨0, _, rfl, wellFormed_clearName h r, Prod.ext_iff.mpr ⟨rfl, varTable_clearName r⟩⟩

/-- The user bytes after the string `s` has been copied to `buf`. -/
def putString (user : Word → BitVec 8) (buf : Word) (s : List (BitVec 8)) : Word → BitVec 8 :=
  fun a => ((s ++ [0])[(a - buf).toNat]?).getD (user a)

lemma strcpyOut_user (u : UserKern) (va : Word) (s : ℕ → BitVec 8) (a : Word) :
    (u.strcpyOut va s).user a =
      if (a - va).toNat < strExtent s then s (a - va).toNat else u.user a := rfl

/-- What `sys_get_var` returns and leaves in the user memory. -/
def getResult (user : Word → BitVec 8) (buf : Word) :
    Option (List (BitVec 8)) → Word × (Word → BitVec 8)
  | none => (-1, user)
  | some s => (0, putString user buf s)

/-- **`sys_get_var`** on a well-formed table. -/
theorem sysGetVar_table {buf : Word} (hcur : u.kern.curenv = some c) (h : WellFormedVars u.vars) :
    ∃ r u', u.sysGetVar va buf = .ok (r, u') ∧ u'.vars = u.vars ∧
      (r, u'.user) = getResult u.user buf
        ((varTable u.vars).get (u.kern.envs c).shellId (u.nameAt va)) := by
  obtain ⟨l, hl⟩ := checkVar_table h c va false
  rw [if_neg Bool.false_ne_true] at hl
  unfold UserKern.sysGetVar VarTable.get
  simp only [hcur, deref, pure_eq_ok, ok_bind, hl, UserKern.nameAt]
  rcases (varTable u.vars).find (u.kern.envs c).shellId (cstr (bytesAt u.user va) varNameLen)
    with _ | r
  · exact ⟨-1, _, rfl, rfl, rfl⟩
  obtain ⟨n, hn, hv⟩ := exists_strLen (h r).2
  have hzero : u.vars (UserKern.valueOff r + n) = 0 := hv.1
  have hstr : (varTable u.vars r).value ++ [0] =
      (List.range (n + 1)).map fun j => u.vars (UserKern.valueOff r + j) := by
    rw [List.range_succ, List.map_append, List.map_singleton, hzero, varTable, hv.cstr_eq hn]
  have hext : strExtent (fun j => u.vars (UserKern.valueOff r + j)) = n + 1 :=
    hv.extent_eq (by simp only [varValueLen] at hn; omega)
  have hval : UserKern.value { u with touched := l } r =
      fun j => u.vars (UserKern.valueOff r + j) := rfl
  refine ⟨0, _, rfl, rfl, Prod.ext_iff.mpr ⟨rfl, funext fun a => ?_⟩⟩
  simp only [strcpyOut_user, Option.map_some, getResult, putString, hval, hext, hstr]
  by_cases hlt : (a - buf).toNat < n + 1
  · rw [if_pos hlt, List.getElem?_map, List.getElem?_range hlt]
    rfl
  · rw [if_neg hlt, List.getElem?_eq_none (by simpa using hlt)]
    rfl

end MosVolca
