import Mathlib.Data.List.Find
import Mathlib.Data.List.GetD
import MosVolca.Kern.VarTable

/-!
# Variables of several shells

A shell finds its own variables and the global ones, the first of a name in the order of the
table. Another shell can change what it finds: a local declaration takes a global variable away
when it is the one that is found, and a global declaration may come to lie in front of a read-only
variable.

## Main definitions

* `MosVolca.Uncovers` — a local declaration takes away what another shell finds.
* `MosVolca.Refused` — a declaration that writes nothing.
* `MosVolca.SameGets` — what no environment of a shell can tell apart.
* `MosVolca.VarRun` — calls of several shells.

## Main results

* `MosVolca.VarTable.get_declare_iff` — local declarations, on the table.
* `MosVolca.declareVar_local_iff` — and on the calls.
* `MosVolca.readOnly_constant` — what a shell has declared read-only stays as it is in a run in
  which no global declaration comes to lie in front of a read-only variable.
-/

namespace MosVolca

open CString

variable {T : VarTable} {a b : Word} {name name' value : List (BitVec 8)} {perm isGlobal : Word}
  {i r : ℕ}

/-! ## The first entry -/

namespace VarTable

/-- What the shell finds behind entry `r`. -/
def getAfter (T : VarTable) (r : ℕ) (a : Word) (name : List (BitVec 8)) :
    Option (List (BitVec 8)) :=
  ((List.range' (r + 1) (UserKern.maxVarNum - (r + 1))).find? (T.sees a name)).map fun i =>
    (T i).value

lemma sees_iff : T.sees a name i = true ↔
    (T i).name ≠ [] ∧ (T i).name = name ∧ ((T i).shellId = 0 ∨ (T i).shellId = a) := by
  simp [sees, and_assoc]

/-- What is found is the first entry that is seen. -/
lemma find_eq_some_iff : T.find a name = some r ↔
    r < UserKern.maxVarNum ∧ T.sees a name r = true ∧ ∀ i < r, T.sees a name i = false := by
  unfold find
  rw [List.find?_range_eq_some]
  simp [and_left_comm]

lemma find_eq_none_iff : T.find a name = none ↔
    ∀ i < UserKern.maxVarNum, T.sees a name i = false := by
  unfold find
  simp

lemma get_eq_some (h : T.get a name = some value) :
    ∃ i, T.find a name = some i ∧ (T i).value = value := Option.map_eq_some_iff.mp h

/-- What is found is the first entry, or what comes behind it. -/
lemma find?_range_of_first {p q : ℕ → Bool} {n : ℕ} (hr : r < n) (hq : q r = false)
    (hsame : ∀ i, i ≠ r → q i = p i) (hp : ∀ i < r, p i = false) :
    (List.range n).find? q = (List.range' (r + 1) (n - (r + 1))).find? p := by
  have hsplit : List.range n =
      List.range' 0 (r + 1) ++ List.range' (0 + (r + 1)) (n - (r + 1)) := by
    rw [List.range'_append_1, List.range_eq_range', Nat.add_sub_cancel' (by omega)]
  have hnone : (List.range' 0 (r + 1)).find? q = none := by
    rw [List.find?_eq_none]
    intro i hi
    rw [Bool.not_eq_true]
    by_cases he : i = r
    · rw [he, hq]
    · rw [hsame i he]
      have := List.mem_range'_1.mp hi
      exact hp i (by omega)
  rw [hsplit, List.find?_append, hnone, Option.none_or, Nat.zero_add]
  refine List.find?_congr fun i hi => ?_
  have := List.mem_range'_1.mp hi
  exact hsame i (by omega)

/-! ## Declaring -/

/-- What another shell sees after a local declaration: the entry that was written is hidden. -/
lemma sees_update {x : VarEntry} (hx : x.shellId ≠ 0 ∧ x.shellId ≠ b) (i : ℕ) :
    VarTable.sees (Function.update T r x) b name' i = (T.sees b name' i && i != r) := by
  by_cases hi : i = r
  · subst hi
    have h0 : x.shellId ≠ 0#32 := hx.1
    simp [sees, h0, hx.2]
  · simp [sees, hi]

/-- **What another shell finds after a local declaration**: what it found before, or what was
behind the entry that is hidden now. -/
lemma get_update {x : VarEntry} (hx : x.shellId ≠ 0 ∧ x.shellId ≠ b) :
    VarTable.get (Function.update T r x) b name' =
      if T.find b name' = some r then T.getAfter r b name' else T.get b name' := by
  have hq : VarTable.sees (Function.update T r x) b name' r = false := by
    rw [sees_update hx]
    simp
  have hsame : ∀ i, i ≠ r →
      VarTable.sees (Function.update T r x) b name' i = T.sees b name' i := fun i hi => by
    rw [sees_update hx]
    simp [hi]
  have hval : ∀ i, i ≠ r → (Function.update T r x i).value = (T i).value := fun i hi => by
    rw [Function.update_of_ne hi]
  unfold get
  split_ifs with hfind
  · obtain ⟨hr, -, hp⟩ := find_eq_some_iff.mp hfind
    unfold find getAfter
    rw [find?_range_of_first hr hq hsame hp]
    refine Option.map_congr fun i hi => hval i ?_
    have := List.mem_range'_1.mp (List.mem_of_find?_eq_some hi)
    omega
  · rcases hT : T.find b name' with _ | i
    · have hnone : VarTable.find (Function.update T r x) b name' = none := by
        rw [find_eq_none_iff] at hT ⊢
        intro i hi
        rw [sees_update hx, hT i hi, Bool.false_and]
      rw [hnone]
      rfl
    · have hi : i ≠ r := fun he => hfind (he ▸ hT)
      have hsome : VarTable.find (Function.update T r x) b name' = some i := by
        rw [find_eq_some_iff] at hT ⊢
        refine ⟨hT.1, by rw [hsame i hi, hT.2.1], fun j hj => ?_⟩
        rw [sees_update hx, hT.2.2 j hj, Bool.false_and]
      rw [hsome, Option.map_some, Option.map_some, hval i hi]

/-- Where `sys_declare_var` writes. -/
lemma slot_cases (h : T.slot a name = some r) :
    T.find a name = some r ∨ (T.find a name = none ∧ (T r).name = []) := by
  unfold slot at h
  rcases hf : T.find a name with _ | r'
  · rw [hf, Option.none_or] at h
    exact Or.inr ⟨rfl, by simpa using List.find?_some h⟩
  · rw [hf, Option.some_or] at h
    exact Or.inl h

lemma slot_lt (h : T.slot a name = some r) : r < UserKern.maxVarNum := by
  unfold slot at h
  rcases hf : T.find a name with _ | r'
  · rw [hf, Option.none_or] at h
    exact List.mem_range.mp (List.mem_of_find?_eq_some h)
  · rw [hf, Option.some_or, Option.some.injEq] at h
    exact h ▸ (find_eq_some_iff.mp hf).1

lemma slot_of_find (h : T.find a name = some r) : T.slot a name = some r := by
  rw [slot, h, Option.some_or]

lemma slot_of_free (h : T.find a name = none) (hr : r < UserKern.maxVarNum)
    (hfree : (T r).name = []) (hused : ∀ i < r, (T i).name ≠ []) : T.slot a name = some r := by
  rw [slot, h, Option.none_or, List.find?_range_eq_some]
  refine ⟨by simpa using hfree, List.mem_range.mpr hr, fun i hi => ?_⟩
  simpa using hused i hi

/-- A declaration that is stored. -/
lemma declare_eq (h : T.slot a name = some r) (hro : ¬ T.ReadOnly r) :
    T.declare a name value perm isGlobal =
      (0, Function.update T r ⟨name, value, owner a isGlobal, perm⟩) := by
  unfold declare
  rw [h]
  simp only [if_neg hro]

end VarTable

/-- The local declaration of the name by the shell `a` takes away what the shell `b` finds: it
writes a global variable that is also the one that `b` finds, and `b` finds no variable of the same
value behind it. -/
def Uncovers (T : VarTable) (a b : Word) (name : List (BitVec 8)) : Prop :=
  ∃ r, T.find a name = some r ∧ (T r).shellId = 0 ∧ ¬ T.ReadOnly r ∧ T.find b name = some r ∧
    T.getAfter r b name ≠ some (T r).value

namespace VarTable

/-- A declaration that uncovers changes what the other shell finds. -/
lemma get_declare_ne (value : List (BitVec 8)) (perm : Word) (ha : a ≠ 0) (hab : a ≠ b)
    (h : Uncovers T a b name) :
    (T.declare a name value perm 0).2.get b name ≠ T.get b name := by
  obtain ⟨r, hf, -, hro, hb, hne⟩ := h
  have hx : owner a 0 ≠ 0 ∧ owner a 0 ≠ b := ⟨ha, hab⟩
  rw [declare_eq (slot_of_find hf) hro, get_update hx, if_pos hb, get, hb, Option.map_some]
  exact hne

/-- **Local declarations stay local** on the table, if and only if they do not uncover. -/
theorem get_declare_iff (value : List (BitVec 8)) (perm : Word) (ha : a ≠ 0) (hab : a ≠ b) :
    (∀ name', (T.declare a name value perm 0).2.get b name' = T.get b name') ↔
      ¬ Uncovers T a b name := by
  refine ⟨fun hall hun => get_declare_ne value perm ha hab hun (hall name), fun hno name' => ?_⟩
  unfold declare
  rcases hslot : T.slot a name with _ | r
  · rfl
  simp only
  by_cases hro : T.ReadOnly r
  · rw [if_pos hro]
  have hx : owner a 0 ≠ 0 ∧ owner a 0 ≠ b := ⟨ha, hab⟩
  rw [if_neg hro, get_update hx]
  split_ifs with hb
  · -- an entry that `b` finds is used, so `a` has found it too, and it is global
    obtain ⟨hne, hname, hown⟩ := sees_iff.mp (find_eq_some_iff.mp hb).2.1
    have hf := (slot_cases hslot).resolve_right fun hc => hne hc.2
    obtain ⟨-, hname', hown'⟩ := sees_iff.mp (find_eq_some_iff.mp hf).2.1
    obtain rfl : name = name' := hname'.symm.trans hname
    have hglobal : (T r).shellId = 0 := by
      rcases hown' with h0 | h1
      · exact h0
      · exact hown.resolve_right fun h2 => hab (h1.symm.trans h2)
    rw [get, hb]
    by_contra hc
    exact hno ⟨r, hf, hglobal, hro, hb, hc⟩
  · rfl

end VarTable

/-! ## The calls -/

/-- What `sys_get_var` returns, and what it leaves in the user memory. -/
def getVarResult (u : UserKern) (varName valueBuf : Word) : Kernel (Word × (Word → BitVec 8)) := do
  let (r, u) ← u.sysGetVar varName valueBuf
  pure (r, u.user)

/-- No environment of the shell `b` can tell the two tables apart with `sys_get_var`. -/
def SameGets (vars vars' : ℕ → BitVec 8) (b : Word) : Prop :=
  ∀ (w : UserKern) (c : EnvPtr) (varName valueBuf : Word), w.vars = vars →
    w.kern.curenv = some c → (w.kern.envs c).shellId = b →
      getVarResult { w with vars := vars' } varName valueBuf = getVarResult w varName valueBuf

variable {u : UserKern} {c : EnvPtr} {vars : ℕ → BitVec 8}

lemma getVarResult_eq (hcur : u.kern.curenv = some c) (h : WellFormedVars u.vars)
    (va buf : Word) : getVarResult u va buf =
      .ok (getResult u.user buf ((varTable u.vars).get (u.kern.envs c).shellId (u.nameAt va))) := by
  obtain ⟨r, u', hr, -, heq⟩ : ∃ r u', u.sysGetVar va buf = .ok (r, u') ∧ u'.vars = u.vars ∧
      (r, u'.user) = getResult u.user buf
        ((varTable u.vars).get (u.kern.envs c).shellId (u.nameAt va)) := sysGetVar_table hcur h
  unfold getVarResult
  rw [hr, ok_bind, ← heq]
  rfl

lemma getVar_user {u' : UserKern} {va buf : Word} {r : Option Word} (hcur : u.kern.curenv = some c)
    (h : WellFormedVars u.vars) (hr : (PtrCall.getVar va buf).run u = .ok (r, u')) :
    u'.user = (getResult u.user buf
      ((varTable u.vars).get (u.kern.envs c).shellId (u.nameAt va))).2 := by
  obtain ⟨r₁, u₁, hrun, -, heq⟩ : ∃ r u', u.sysGetVar va buf = .ok (r, u') ∧ u'.vars = u.vars ∧
      (r, u'.user) = getResult u.user buf
        ((varTable u.vars).get (u.kern.envs c).shellId (u.nameAt va)) := sysGetVar_table hcur h
  rw [PtrCall.run, hrun] at hr
  obtain rfl : u₁ = u' := (Prod.ext_iff.mp (Except.ok.inj hr)).2
  rw [← heq]

/-- The string that has been copied to a buffer is there. -/
lemma cstr_putString {user : Word → BitVec 8} {buf : Word} {s : List (BitVec 8)} {n : ℕ}
    (h0 : (0 : BitVec 8) ∉ s) (hlen : s.length < n) (hn : n ≤ 2 ^ 32) :
    cstr (bytesAt (putString user buf s) buf) n = s := by
  have hbyte : ∀ j ≤ s.length, bytesAt (putString user buf s) buf j = (s ++ [0]).getD j 0 := by
    intro j hj
    have hsub : (buf + BitVec.ofNat 32 j - buf).toNat = j := by
      rw [add_sub_cancel_left, BitVec.toNat_ofNat, Nat.mod_eq_of_lt (by omega)]
    unfold bytesAt putString
    rw [hsub, List.getD_eq_getElem?_getD]
    rw [List.getElem?_eq_getElem (by simp; omega)]
    rfl
  have hstr : StrLen (bytesAt (putString user buf s) buf) s.length := by
    refine ⟨?_, fun i hi hz => h0 ?_⟩
    · rw [hbyte _ le_rfl]
      simp
    · rw [hbyte i hi.le, List.getD_append _ _ _ _ hi, List.getD_eq_getElem _ _ hi] at hz
      exact hz ▸ List.getElem_mem hi
  rw [hstr.cstr_eq hlen]
  refine List.ext_getElem (by simp) fun i hi hi' => ?_
  rw [List.getElem_map, List.getElem_range, hbyte i hi'.le, List.getD_append _ _ _ _ hi',
    List.getD_eq_getElem _ _ hi']

/-- A value of the table has no null byte and is not too long. -/
lemma value_of_get {s : List (BitVec 8)} (h : (varTable vars).get b name = some s) :
    (0 : BitVec 8) ∉ s ∧ s.length ≤ varValueLen := by
  obtain ⟨i, -, rfl⟩ := VarTable.get_eq_some h
  have hv : (varTable vars i).value =
      cstr (fun j => vars (UserKern.valueOff i + j)) varValueLen := by rw [varTable]
  rw [hv]
  exact ⟨zero_notMem_cstr _ _, length_cstr_le _ _⟩

/-- The result of `sys_get_var` tells what has been found. -/
lemma getResult_inj {vars' : ℕ → BitVec 8} {user : Word → BitVec 8} {buf : Word}
    (h : getResult user buf ((varTable vars').get b name) =
      getResult user buf ((varTable vars).get b name)) :
    (varTable vars').get b name = (varTable vars).get b name := by
  have hlen : varValueLen < 2048 := by decide
  rcases h1 : (varTable vars').get b name with _ | s
  · rcases h2 : (varTable vars).get b name with _ | s'
    · rfl
    · rw [h1, h2] at h
      exact absurd (Prod.ext_iff.mp h).1 (by simp [getResult])
  · rcases h2 : (varTable vars).get b name with _ | s'
    · rw [h1, h2] at h
      exact absurd (Prod.ext_iff.mp h).1 (by simp [getResult])
    · rw [h1, h2] at h
      have hput : putString user buf s = putString user buf s' := (Prod.ext_iff.mp h).2
      obtain ⟨hz, hl⟩ := value_of_get h1
      obtain ⟨hz', hl'⟩ := value_of_get h2
      have hs : cstr (bytesAt (putString user buf s) buf) 2048 = s :=
        cstr_putString hz (by omega) (by decide)
      have hs' : cstr (bytesAt (putString user buf s') buf) 2048 = s' :=
        cstr_putString hz' (by omega) (by decide)
      rw [← hs, ← hs', hput]

/-- **The three ends of `sys_declare_var`**, on the bytes. -/
lemma sysDeclareVar_cases (u : UserKern) (va value perm isGlobal : Word)
    (hcur : u.kern.curenv = some c) :
    ((u.checkVar c va true).1 = none ∧ ∃ l,
      u.sysDeclareVar va value perm isGlobal = .ok (-1, { u with touched := l })) ∨
    (∃ r, (u.checkVar c va true).1 = some r ∧ u.perm r &&& UserKern.varRdonly ≠ 0 ∧ ∃ l,
      u.sysDeclareVar va value perm isGlobal = .ok (-2, { u with touched := l })) ∨
    ∃ r u', (u.checkVar c va true).1 = some r ∧ u.perm r &&& UserKern.varRdonly = 0 ∧
      u.sysDeclareVar va value perm isGlobal = .ok (0, u') ∧
      u'.vars = writeEntry u.vars r (bytesAt u.user va) (bytesAt u.user value) perm
        (VarTable.owner (u.kern.envs c).shellId isGlobal) := by
  obtain ⟨l, hl, -⟩ := checkVar_below u c va true
  rcases ho : (u.checkVar c va true).1 with _ | r
  · refine .inl ⟨rfl, l, ?_⟩
    have hcheck : u.checkVar c va true = (none, { u with touched := l }) :=
      Prod.ext_iff.mpr ⟨ho, hl⟩
    unfold UserKern.sysDeclareVar
    simp only [hcur, deref, pure_eq_ok, ok_bind, hcheck]
  have hcheck : u.checkVar c va true = (some r, { u with touched := l }) :=
    Prod.ext_iff.mpr ⟨ho, hl⟩
  by_cases hro : u.perm r &&& UserKern.varRdonly = 0
  · have hrun : ∃ u', u.sysDeclareVar va value perm isGlobal = .ok (0, u') ∧
        u'.vars = writeEntry u.vars r (bytesAt u.user va) (bytesAt u.user value) perm
          (VarTable.owner (u.kern.envs c).shellId isGlobal) := by
      have hro' : ¬ UserKern.perm { u with touched := l } r &&& UserKern.varRdonly ≠ 0 :=
        not_not.mpr hro
      unfold UserKern.sysDeclareVar
      simp only [hcur, deref, pure_eq_ok, ok_bind, hcheck, if_neg hro']
      exact ⟨_, rfl, rfl⟩
    obtain ⟨u', hr, hvars⟩ := hrun
    exact .inr (.inr ⟨r, u', rfl, hro, hr, hvars⟩)
  · refine .inr (.inl ⟨r, rfl, hro, l, ?_⟩)
    unfold UserKern.sysDeclareVar
    simp only [hcur, deref, pure_eq_ok, ok_bind, hcheck]
    exact if_pos hro

/-- `checkVar` finds no entry to write, or a read-only one. -/
def Refused (u : UserKern) (c : EnvPtr) (va : Word) : Prop :=
  ∀ r, (u.checkVar c va true).1 = some r → u.perm r &&& UserKern.varRdonly ≠ 0

/-- A declaration that uncovers changes what the other shell gets. -/
lemma not_sameGets (hcur : u.kern.curenv = some c) (h : WellFormedVars u.vars)
    (ha : (u.kern.envs c).shellId ≠ 0) (hab : (u.kern.envs c).shellId ≠ b) {va value : Word}
    {vars' : ℕ → BitVec 8} (h' : WellFormedVars vars')
    (htable : varTable vars' = ((varTable u.vars).declare (u.kern.envs c).shellId (u.nameAt va)
      (u.valueAt value) perm 0).2)
    (hun : Uncovers (varTable u.vars) (u.kern.envs c).shellId b (u.nameAt va)) :
    ¬ SameGets u.vars vars' b := by
  intro hsame
  -- the other shell asks for the name from the memory of the first one
  let w : UserKern := { u with kern := u.kern.setEnv c fun x => { x with shellId := b } }
  have hshell : (w.kern.envs c).shellId = b := by
    change ((u.kern.setEnv c fun x => { x with shellId := b }).envs c).shellId = b
    rw [Kern.setEnv_envs_same]
  have hw := hsame w c va 0 rfl hcur hshell
  rw [getVarResult_eq (u := w) hcur h, getVarResult_eq (u := { w with vars := vars' }) hcur h',
    Except.ok.injEq] at hw
  have hne := VarTable.get_declare_ne (u.valueAt value) perm ha hab hun
  rw [← htable] at hne
  apply hne
  rw [← hshell]
  exact getResult_inj hw

/-- **Local declarations stay local**: a `sys_declare_var` with `isGlobal = 0` by one shell leaves
every `sys_get_var` of another shell as it was if it is refused; and for strings that fit into an
entry if and only if it does not take away the variable that the other shell finds. A string that
does not fit runs on into what lies behind its field.

**Proof sketch.** The call is `VarTable.declare` on the table, where the search of the other shell finds
the first entry that it may see. -/
theorem declareVar_local_iff (u : UserKern) (c : EnvPtr) (va value perm b : Word)
    (hcur : u.kern.curenv = some c) (h : WellFormedVars u.vars) (ha : (u.kern.envs c).shellId ≠ 0)
    (hab : (u.kern.envs c).shellId ≠ b) :
    ∃ r u', u.sysDeclareVar va value perm 0 = .ok (r, u') ∧
      (Refused u c va → SameGets u.vars u'.vars b) ∧
      (Fits u va varNameLen ∧ Fits u value varValueLen → (SameGets u.vars u'.vars b ↔
        ¬ Uncovers (varTable u.vars) (u.kern.envs c).shellId b (u.nameAt va))) := by
  obtain ⟨r, u', hr, hrefused⟩ : ∃ r u', u.sysDeclareVar va value perm 0 = .ok (r, u') ∧
      (Refused u c va → u'.vars = u.vars) := by
    rcases sysDeclareVar_cases u va value perm 0 hcur with ⟨-, l, hd⟩ | ⟨_, -, -, l, hd⟩ |
      ⟨r, u', hs, hro, hd, -⟩
    · exact ⟨_, _, hd, fun _ => rfl⟩
    · exact ⟨_, _, hd, fun _ => rfl⟩
    · exact ⟨_, _, hd, fun hno => absurd hro (hno r hs)⟩
  refine ⟨r, u', hr, fun hno w cb va' buf hw _ _ => ?_, fun ⟨hname, hvalue⟩ => ?_⟩
  · rw [hrefused hno, ← hw]
  obtain ⟨r₁, u₁, hr₁, h', heq⟩ : ∃ r u', u.sysDeclareVar va value perm 0 = .ok (r, u') ∧
      WellFormedVars u'.vars ∧ (r, varTable u'.vars) = (varTable u.vars).declare
        (u.kern.envs c).shellId (u.nameAt va) (u.valueAt value) perm 0 :=
    sysDeclareVar_table hcur h hname hvalue
  obtain ⟨-, rfl⟩ := Prod.ext_iff.mp (Except.ok.inj (hr.symm.trans hr₁))
  have htable : varTable u'.vars = ((varTable u.vars).declare (u.kern.envs c).shellId (u.nameAt va)
      (u.valueAt value) perm 0).2 := (Prod.ext_iff.mp heq).2
  refine ⟨fun hsame hun => not_sameGets hcur h ha hab h' htable hun hsame, ?_⟩
  intro hno w cb va' buf hw hcb hb
  have hget := (VarTable.get_declare_iff (u.valueAt value) perm ha hab).mpr hno
  rw [getVarResult_eq (u := w) hcb (hw ▸ h),
    getVarResult_eq (u := { w with vars := u'.vars }) hcb h', hb]
  have hgets : (varTable u'.vars).get b (w.nameAt va') =
      (varTable w.vars).get b (w.nameAt va') := by
    rw [htable, hw]
    exact hget _
  exact congrArg (fun s => Except.ok (getResult w.user buf s)) hgets

/-! ## Read-only variables -/

namespace VarTable

/-- The shell `a` finds the read-only value `value` for the name. -/
def Holds (T : VarTable) (a : Word) (name value : List (BitVec 8)) : Prop :=
  ∃ r, T.find a name = some r ∧ T.ReadOnly r ∧ (T r).value = value

lemma Holds.get (h : T.Holds a name value) : T.get a name = some value := by
  obtain ⟨r, hf, -, hv⟩ := h
  rw [VarTable.get, hf, Option.map_some, hv]

/-- An entry changes that is not the one that is found, and is not found afterwards in front of
it. -/
lemma Holds.update {x : VarEntry} (h : T.Holds a name value) (hr : ¬ T.ReadOnly r)
    (hx : ∀ r', T.find a name = some r' → r < r' →
      VarTable.sees (Function.update T r x) a name r = false) :
    VarTable.Holds (Function.update T r x) a name value := by
  obtain ⟨r', hf, hro, hv⟩ := h
  have hne : r' ≠ r := fun he => hr (he ▸ hro)
  have hself : Function.update T r x r' = T r' := Function.update_of_ne hne _ _
  refine ⟨r', find_eq_some_iff.mpr ⟨?_, ?_, fun i hi => ?_⟩, ?_, by rw [hself, hv]⟩
  · exact (find_eq_some_iff.mp hf).1
  · rw [sees, hself]
    exact (find_eq_some_iff.mp hf).2.1
  · by_cases hir : i = r
    · exact hir ▸ hx r' hf (hir ▸ hi)
    · rw [sees, Function.update_of_ne hir]
      exact (find_eq_some_iff.mp hf).2.2 i hi
  · unfold ReadOnly
    rw [hself]
    exact hro

/-- A global declaration by `b` does not come to lie in front of a read-only variable of the same
name that some shell finds. -/
def Spares (T : VarTable) (b : Word) (name : List (BitVec 8)) (isGlobal : Word) : Prop :=
  isGlobal ≠ 0 → ∀ a r r', T.find a name = some r → T.ReadOnly r → T.slot b name = some r' → r ≤ r'

/-- A variable keeps its value when a call of another shell spares it. -/
lemma Holds.declare (h : T.Holds a name value) (hb : b ≠ 0) (hspare : T.Spares b name' isGlobal)
    (value' : List (BitVec 8)) (perm : Word) :
    (T.declare b name' value' perm isGlobal).2.Holds a name value := by
  unfold VarTable.declare
  rcases hslot : T.slot b name' with _ | r
  · exact h
  by_cases hro : T.ReadOnly r
  · simp only [if_pos hro]
    exact h
  simp only [if_neg hro]
  obtain ⟨r₀, hf₀, hro₀, -⟩ := id h
  refine h.update hro fun r' hf hlt => ?_
  rw [Bool.eq_false_iff, ne_eq, sees_iff, Function.update_self]
  rintro ⟨-, rfl, hown⟩
  by_cases hg : isGlobal = 0
  · -- a local variable of another shell is not seen, and `a` itself would have found its own
    have howner : owner b isGlobal = b := if_neg (not_not.mpr hg)
    rw [howner] at hown
    obtain rfl := hown.resolve_left hb
    rw [slot, hf, Option.some_or, Option.some.injEq] at hslot
    omega
  · obtain rfl : r₀ = r' := Option.some.inj (hf₀.symm.trans hf)
    have := hspare hg a r₀ r hf hro₀ hslot
    omega

lemma Holds.unset (h : T.Holds a name value) (b : Word) (name' : List (BitVec 8)) :
    (T.unset b name').2.Holds a name value := by
  unfold VarTable.unset
  rcases T.find b name' with _ | r
  · exact h
  by_cases hro : T.ReadOnly r
  · simp only [if_pos hro]
    exact h
  simp only [if_neg hro]
  refine h.update hro fun r' _ _ => ?_
  rw [Bool.eq_false_iff, ne_eq, sees_iff, Function.update_self]
  exact fun hc => hc.1 rfl

/-- **A declaration that returns 0** is what the shell finds from then on. -/
lemma find_declare (hname : name ≠ []) (h : (T.declare a name value perm isGlobal).1 = 0) :
    ∃ r, T.slot a name = some r ∧ ¬ T.ReadOnly r ∧
      (T.declare a name value perm isGlobal).2 =
        Function.update T r ⟨name, value, owner a isGlobal, perm⟩ ∧
      (T.declare a name value perm isGlobal).2.find a name = some r := by
  unfold declare at h ⊢
  rcases hslot : T.slot a name with _ | r
  · rw [hslot] at h
    exact absurd (show (-1 : Word) = 0 from h) (by decide)
  rw [hslot] at h
  by_cases hro : T.ReadOnly r
  · simp only [if_pos hro] at h
    exact absurd h (by decide)
  simp only [if_neg hro]
  have hr := slot_lt hslot
  refine ⟨r, rfl, hro, rfl, find_eq_some_iff.mpr ⟨hr, ?_, fun i hi => ?_⟩⟩
  · rw [sees_iff, Function.update_self]
    refine ⟨hname, rfl, ?_⟩
    change owner a isGlobal = 0 ∨ owner a isGlobal = a
    unfold owner
    split_ifs
    · exact Or.inl rfl
    · exact Or.inr rfl
  · rw [sees, Function.update_of_ne hi.ne]
    change T.sees a name i = false
    rcases slot_cases hslot with hf | ⟨hf, -⟩
    · exact (find_eq_some_iff.mp hf).2.2 i hi
    · exact find_eq_none_iff.mp hf i (hi.trans hr)

/-- A successful declaration of a read-only variable. -/
lemma holds_declare (hname : name ≠ []) (hperm : perm &&& UserKern.varRdonly ≠ 0)
    (h : (T.declare a name value perm isGlobal).1 = 0) :
    (T.declare a name value perm isGlobal).2.Holds a name value := by
  obtain ⟨r, -, -, heq, hfind⟩ := find_declare hname h
  refine ⟨r, hfind, ?_, ?_⟩
  · rw [heq, ReadOnly, Function.update_self]
    exact hperm
  · rw [heq, Function.update_self]

end VarTable

/-! ## Runs -/

/-- The shell of the current environment. -/
def shellOf (u : UserKern) : Word :=
  match u.kern.curenv with
  | some c => (u.kern.envs c).shellId
  | none => 0

/-- A name that is not empty and fits its field. -/
def IsVarName (u : UserKern) (va : Word) : Prop := Fits u va varNameLen ∧ bytesAt u.user va 0 ≠ 0

/-- The calls on variables, with strings that fit. -/
def VarCallFits (u : UserKern) : PtrCall → Prop
  | .declareVar varName value _ _ => IsVarName u varName ∧ Fits u value varValueLen
  | .unsetVar varName => IsVarName u varName
  | .getVar varName _ => IsVarName u varName
  | _ => False

/-- The strings of a declaration end within their fields; the name may be empty. -/
def StringsFit (u : UserKern) : PtrCall → Prop
  | .declareVar varName value _ _ => Fits u varName varNameLen ∧ Fits u value varValueLen
  | .unsetVar _ => True
  | .getVar _ _ => True
  | _ => False

/-- A run of `n` calls by environments of shells, from an empty table: the states before the calls,
the calls, and what they return. Between two calls anything but the table may change. -/
structure VarRun (n : ℕ) (σ : ℕ → UserKern) (call : ℕ → PtrCall) (res : ℕ → Word) : Prop where
  start : (σ 0).vars = fun _ => 0
  shell : ∀ t < n, shellOf (σ t) ≠ 0
  fits : ∀ t < n, VarCallFits (σ t) (call t)
  step : ∀ t < n, ∃ u', (call t).run (σ t) = .ok (some (res t), u') ∧ (σ (t + 1)).vars = u'.vars

/-- What a call does to the table. -/
def tableAfter (u : UserKern) : PtrCall → VarTable
  | .declareVar varName value perm isGlobal =>
    ((varTable u.vars).declare (shellOf u) (u.nameAt varName) (u.valueAt value) perm isGlobal).2
  | .unsetVar varName => ((varTable u.vars).unset (shellOf u) (u.nameAt varName)).2
  | _ => varTable u.vars

/-- The condition on a call: a global declaration spares the read-only variables. -/
def SparesReadOnly (u : UserKern) : PtrCall → Prop
  | .declareVar varName _ _ isGlobal =>
    (varTable u.vars).Spares (shellOf u) (u.nameAt varName) isGlobal
  | _ => True

variable {n s t : ℕ} {σ : ℕ → UserKern} {call : ℕ → PtrCall} {res : ℕ → Word}

lemma shellOf_eq (hcur : u.kern.curenv = some c) : shellOf u = (u.kern.envs c).shellId := by
  rw [shellOf, hcur]

/-- A shell that is not 0 is that of an environment. -/
lemma exists_curenv (h : shellOf u ≠ 0) : ∃ c, u.kern.curenv = some c := by
  rcases hc : u.kern.curenv with _ | c
  · rw [shellOf, hc] at h
    exact absurd rfl h
  · exact ⟨c, rfl⟩

/-- A call that fits has strings that end in user memory. -/
lemma VarCallFits.strings {call : PtrCall} (h : VarCallFits u call) : StringsFit u call := by
  cases call with
  | declareVar va value perm isGlobal => exact ⟨h.1.1, h.2⟩
  | unsetVar va => exact trivial
  | getVar va buf => exact trivial
  | _ => exact h

/-- A call on variables returns. -/
lemma StringsFit.run_eq (hcur : u.kern.curenv = some c) (h : WellFormedVars u.vars)
    {call : PtrCall} (hfits : StringsFit u call) :
    ∃ r u', call.run u = .ok (some r, u') ∧ WellFormedVars u'.vars ∧
      varTable u'.vars = tableAfter u call := by
  have hshell := shellOf_eq hcur
  cases call with
  | declareVar va value perm isGlobal =>
    obtain ⟨r, u', hr, h', heq⟩ : ∃ r u', u.sysDeclareVar va value perm isGlobal = .ok (r, u') ∧
        WellFormedVars u'.vars ∧ (r, varTable u'.vars) =
          (varTable u.vars).declare (u.kern.envs c).shellId (u.nameAt va) (u.valueAt value) perm
            isGlobal := sysDeclareVar_table hcur h hfits.1 hfits.2
    refine ⟨r, u', by rw [PtrCall.run, hr]; rfl, h', ?_⟩
    rw [tableAfter, hshell, ← heq]
  | unsetVar va =>
    obtain ⟨r, u', hr, h', heq⟩ : ∃ r u', u.sysUnsetVar va = .ok (r, u') ∧
        WellFormedVars u'.vars ∧ (r, varTable u'.vars) =
          (varTable u.vars).unset (u.kern.envs c).shellId (u.nameAt va) :=
      sysUnsetVar_table hcur h
    refine ⟨r, u', by rw [PtrCall.run, hr]; rfl, h', ?_⟩
    rw [tableAfter, hshell, ← heq]
  | getVar va buf =>
    obtain ⟨r, u', hr, hvars, -⟩ : ∃ r u', u.sysGetVar va buf = .ok (r, u') ∧
        u'.vars = u.vars ∧ (r, u'.user) = getResult u.user buf
          ((varTable u.vars).get (u.kern.envs c).shellId (u.nameAt va)) := sysGetVar_table hcur h
    refine ⟨r, u', by rw [PtrCall.run, hr]; rfl, hvars.symm ▸ h, ?_⟩
    change varTable u'.vars = varTable u.vars
    rw [hvars]
  | _ => exact absurd hfits id

/-- One call, on the table. -/
lemma VarRun.table (h : VarRun n σ call res) (ht : t < n) (hwf : WellFormedVars (σ t).vars) :
    WellFormedVars (σ (t + 1)).vars ∧ varTable (σ (t + 1)).vars = tableAfter (σ t) (call t) := by
  obtain ⟨c, hcur⟩ := exists_curenv (h.shell t ht)
  obtain ⟨u', hr, hvars⟩ := h.step t ht
  obtain ⟨r, u₁, hrun, hwf', htable⟩ := (h.fits t ht).strings.run_eq hcur hwf
  obtain rfl : u₁ = u' := by
    rw [hrun] at hr
    exact (Prod.ext_iff.mp (Except.ok.inj hr)).2
  rw [hvars]
  exact ⟨hwf', htable⟩

/-- The table is well formed before every call. -/
lemma VarRun.wellFormed (h : VarRun n σ call res) (ht : t ≤ n) : WellFormedVars (σ t).vars := by
  induction t with
  | zero =>
    rw [h.start]
    exact fun i => ⟨⟨0, by decide, rfl⟩, 0, by decide, rfl⟩
  | succ t ih => exact (h.table (by omega) (ih (by omega))).1

/-- A call that meets the condition leaves what a shell finds read-only. -/
lemma VarRun.holds_step (h : VarRun n σ call res) (ht : t < n)
    (hspare : SparesReadOnly (σ t) (call t)) (hold : (varTable (σ t).vars).Holds a name value) :
    (varTable (σ (t + 1)).vars).Holds a name value := by
  rw [(h.table ht (h.wellFormed ht.le)).2]
  cases hcall : call t with
  | declareVar va v perm isGlobal =>
    rw [hcall] at hspare
    exact hold.declare (h.shell t ht) hspare _ _
  | unsetVar va => exact hold.unset _ _
  | _ => exact hold

/-- A run of calls that meet the condition. -/
lemma VarRun.holds (h : VarRun n σ call res) (hspare : ∀ t < n, SparesReadOnly (σ t) (call t))
    (hst : s ≤ t) (ht : t ≤ n) (hold : (varTable (σ s).vars).Holds a name value) :
    (varTable (σ t).vars).Holds a name value := by
  induction t, hst using Nat.le_induction with
  | base => exact hold
  | succ t hst ih => exact h.holds_step (by omega) (hspare t (by omega)) (ih (by omega))

/-- What a declaration returns, on the table. -/
lemma VarRun.declare_res (h : VarRun n σ call res) (hs : s < n) {va v : Word}
    (hcall : call s = .declareVar va v perm isGlobal) :
    res s = ((varTable (σ s).vars).declare (shellOf (σ s)) ((σ s).nameAt va) ((σ s).valueAt v) perm
      isGlobal).1 := by
  obtain ⟨c, hcur⟩ := exists_curenv (h.shell s hs)
  have hfits := h.fits s hs
  obtain ⟨u', hr, -⟩ := h.step s hs
  rw [hcall] at hr hfits
  obtain ⟨r, u₁, hrun, -, heq⟩ : ∃ r u₁, (σ s).sysDeclareVar va v perm isGlobal =
      .ok (r, u₁) ∧ WellFormedVars u₁.vars ∧ (r, varTable u₁.vars) =
        (varTable (σ s).vars).declare ((σ s).kern.envs c).shellId ((σ s).nameAt va)
          ((σ s).valueAt v) perm isGlobal :=
    sysDeclareVar_table hcur (h.wellFormed hs.le) hfits.1.1 hfits.2
  rw [PtrCall.run, hrun] at hr
  have hres : some r = some (res s) := (Prod.ext_iff.mp (Except.ok.inj hr)).1
  rw [shellOf_eq hcur, ← heq]
  exact (Option.some.inj hres).symm

/-- Once a shell has declared a name read-only, every later `sys_get_var` of the name by the same
shell gets the declared value. -/
def ReadsDeclared (n : ℕ) (σ : ℕ → UserKern) (call : ℕ → PtrCall) (res : ℕ → Word) : Prop :=
  ∀ s t, s < t → t < n → ∀ va v perm isGlobal va' buf, call s = .declareVar va v perm isGlobal →
    perm &&& UserKern.varRdonly ≠ 0 → res s = 0 → call t = .getVar va' buf →
    shellOf (σ t) = shellOf (σ s) → (σ t).nameAt va' = (σ s).nameAt va →
    ∃ u', (call t).run (σ t) = .ok (some 0, u') ∧ res t = 0 ∧
      u'.user = putString (σ t).user buf ((σ s).valueAt v)

/-- **Read-only variables are constant** in a run of calls by shells in which no global declaration
comes to lie in front of a read-only variable of the same name. -/
theorem readOnly_constant (h : VarRun n σ call res)
    (hspare : ∀ t < n, SparesReadOnly (σ t) (call t)) : ReadsDeclared n σ call res := by
  intro s t hst ht va v perm isGlobal va' buf hcall hperm hres hget hshell hname
  have hs : s < n := hst.trans ht
  obtain ⟨c, hcur⟩ := exists_curenv (h.shell t ht)
  have hfits := h.fits s hs
  rw [hcall] at hfits
  have hne : (σ s).nameAt va ≠ [] := (not_congr (cstr_eq_nil_iff (by decide))).mpr hfits.1.2
  rw [h.declare_res hs hcall] at hres
  have hdecl := VarTable.holds_declare hne hperm hres
  have hstart : (varTable (σ (s + 1)).vars).Holds (shellOf (σ s)) ((σ s).nameAt va)
      ((σ s).valueAt v) := by
    rw [(h.table hs (h.wellFormed hs.le)).2, hcall]
    exact hdecl
  have hold := h.holds hspare hst ht.le hstart
  obtain ⟨r, u', hrun, -, heq⟩ : ∃ r u', (σ t).sysGetVar va' buf = .ok (r, u') ∧
      u'.vars = (σ t).vars ∧ (r, u'.user) = getResult (σ t).user buf
        ((varTable (σ t).vars).get ((σ t).kern.envs c).shellId ((σ t).nameAt va')) :=
    sysGetVar_table hcur (h.wellFormed ht.le)
  rw [← shellOf_eq hcur, hshell, hname, hold.get, getResult, Prod.mk.injEq] at heq
  obtain ⟨rfl, huser⟩ := heq
  have hcallrun : (call t).run (σ t) = .ok (some 0, u') := by
    rw [hget, PtrCall.run, hrun]
    rfl
  obtain ⟨u₁, hr, -⟩ := h.step t ht
  rw [hcallrun, Except.ok.injEq, Prod.mk.injEq] at hr
  exact ⟨u', hcallrun, (Option.some.inj hr.1).symm, huser⟩

/-! ## Two shells -/

/-- A user memory with the strings "x", "1", "2" and "3". -/
def shellMem (a : Word) : BitVec 8 :=
  if a = 0x400000 then 0x78 else if a = 0x400010 then 0x31 else if a = 0x400020 then 0x32
  else if a = 0x400030 then 0x33 else 0

/-- An environment of the shell `shell`. -/
def shellUser (vars : ℕ → BitVec 8) (shell : Word) : UserKern where
  kern := { pairKern with envs := fun _ => { Env.zero with shellId := shell } }
  user := shellMem
  vars := vars
  console := []
  dev _ := 0
  touched := []

/-- A string of one character. -/
lemma cstr_single {p : ℕ → BitVec 8} {n : ℕ} (h0 : p 0 ≠ 0) (h1 : p 1 = 0) (hn : 1 < n) :
    cstr p n = [p 0] := by
  have h : StrLen p 1 := ⟨h1, fun i hi => by rwa [Nat.lt_one_iff.mp hi]⟩
  rw [h.cstr_eq hn]
  rfl

lemma shellUser_vars (vars : ℕ → BitVec 8) (shell : Word) :
    (shellUser vars shell).vars = vars := rfl

lemma shellUser_name (vars : ℕ → BitVec 8) (shell : Word) :
    (shellUser vars shell).nameAt 0x400000 = [0x78] :=
  cstr_single (p := bytesAt shellMem 0x400000) (by decide) (by decide) (by decide)

lemma shellUser_value (vars : ℕ → BitVec 8) (shell : Word) :
    (shellUser vars shell).valueAt 0x400010 = [0x31] ∧
      (shellUser vars shell).valueAt 0x400020 = [0x32] ∧
      (shellUser vars shell).valueAt 0x400030 = [0x33] :=
  ⟨cstr_single (p := bytesAt shellMem 0x400010) (by decide) (by decide) (by decide),
    cstr_single (p := bytesAt shellMem 0x400020) (by decide) (by decide) (by decide),
    cstr_single (p := bytesAt shellMem 0x400030) (by decide) (by decide) (by decide)⟩

lemma shellUser_fits (vars : ℕ → BitVec 8) (shell va : Word) {n : ℕ} (hn : 1 < n)
    (h1 : bytesAt shellMem va 1 = 0) : Fits (shellUser vars shell) va n := ⟨1, hn, h1⟩

/-- The table is empty at first. -/
def noVars : ℕ → BitVec 8 := fun _ => 0

lemma wellFormed_noVars : WellFormedVars noVars :=
  fun _ => ⟨⟨0, by decide, rfl⟩, 0, by decide, rfl⟩

lemma varTable_noVars : varTable noVars = fun _ => ⟨[], [], 0, 0⟩ := by
  funext i
  have hname : cstr (fun j => noVars (UserKern.nameOff i + j)) varNameLen = [] :=
    (cstr_eq_nil_iff (by decide)).mpr rfl
  have hvalue : cstr (fun j => noVars (UserKern.valueOff i + j)) varValueLen = [] :=
    (cstr_eq_nil_iff (by decide)).mpr rfl
  have hword : ∀ off, wordOf noVars off = 0 := fun _ => by
    change (0#8 ++ 0#8 ++ 0#8 ++ 0#8) = 0#32
    decide
  rw [varTable, hname, hvalue, hword, hword]

/-- The table `vars` after the calls before `t`, by environments of the shells `shell`. -/
def playVars (call : ℕ → PtrCall) (shell : ℕ → Word) : ℕ → ℕ → BitVec 8
  | 0 => noVars
  | t + 1 =>
    match (call t).run (shellUser (playVars call shell t) (shell t)) with
    | .ok (_, u') => u'.vars
    | .error _ => playVars call shell t

/-- The results of the calls. -/
def playRes (call : ℕ → PtrCall) (shell : ℕ → Word) (t : ℕ) : Word :=
  match (call t).run (shellUser (playVars call shell t) (shell t)) with
  | .ok (some r, _) => r
  | _ => 0

/-- The calls are a run. -/
lemma varRun_play {shell : ℕ → Word} (hshell : ∀ t, shell t ≠ 0)
    (hfits : ∀ t vars, VarCallFits (shellUser vars (shell t)) (call t)) :
    VarRun n (fun t => shellUser (playVars call shell t) (shell t)) call (playRes call shell) := by
  have hrun : ∀ t vars, WellFormedVars vars → ∃ r u',
      (call t).run (shellUser vars (shell t)) = .ok (some r, u') ∧ WellFormedVars u'.vars :=
    fun t vars h => by
      obtain ⟨r, u', hr, h', -⟩ := @StringsFit.run_eq _ 0 rfl h _ (hfits t vars).strings
      exact ⟨r, u', hr, h'⟩
  have hwf : ∀ t, WellFormedVars (playVars call shell t) := fun t => by
    induction t with
    | zero => exact wellFormed_noVars
    | succ t ih =>
      obtain ⟨r, u', hr, h'⟩ := hrun t _ ih
      rw [playVars, hr]
      exact h'
  refine ⟨rfl, fun t _ => hshell t, fun t _ => hfits t _, fun t _ => ?_⟩
  obtain ⟨r, u', hr, -⟩ := hrun t _ (hwf t)
  refine ⟨u', ?_, ?_⟩
  · rw [playRes, hr]
  · change playVars call shell (t + 1) = u'.vars
    rw [playVars, hr]

/-- A declaration of "x", on the table. -/
lemma play_declare {shell : ℕ → Word} (hshell : ∀ t, shell t ≠ 0)
    (hfits : ∀ t vars, VarCallFits (shellUser vars (shell t)) (call t)) {t : ℕ} {va : Word}
    (hcall : call t = .declareVar 0x400000 va perm isGlobal)
    (hvalue : ∀ vars shell, (shellUser vars shell).valueAt va = value) :
    (playRes call shell t, varTable (playVars call shell (t + 1))) =
      (varTable (playVars call shell t)).declare (shell t) [0x78] value perm isGlobal := by
  have hrun := varRun_play (n := t + 1) hshell hfits
  have hlt := Nat.lt_succ_self t
  have hres := hrun.declare_res hlt hcall
  have htable := (hrun.table hlt (hrun.wellFormed hlt.le)).2
  rw [hvalue, shellUser_name] at hres
  rw [hcall, tableAfter, hvalue, shellUser_name] at htable
  exact Prod.ext_iff.mpr ⟨hres, htable⟩

/-- A request for "x", on the table. -/
lemma play_getVar {shell : ℕ → Word} (hshell : ∀ t, shell t ≠ 0)
    (hfits : ∀ t vars, VarCallFits (shellUser vars (shell t)) (call t)) {t : ℕ} {buf : Word}
    {r : Option Word} {u' : UserKern} (hcall : call t = .getVar 0x400000 buf)
    (hr : (call t).run (shellUser (playVars call shell t) (shell t)) = .ok (r, u')) :
    u'.user = (getResult shellMem buf
      ((varTable (playVars call shell t)).get (shell t) [0x78])).2 := by
  have hwf := (varRun_play (n := t) hshell hfits).wellFormed le_rfl
  rw [hcall] at hr
  rw [getVar_user (c := 0) rfl hwf hr, shellUser_name]
  rfl

lemma shellUser_isVarName (vars : ℕ → BitVec 8) (shell : Word) :
    IsVarName (shellUser vars shell) 0x400000 :=
  ⟨shellUser_fits vars shell _ (by decide) (by decide),
    show shellMem (0x400000 + 0) ≠ 0 by decide⟩

/-- A declaration of "x" with one of the values. -/
lemma declare_fits (vars : ℕ → BitVec 8) (shell perm isGlobal : Word) {value : Word}
    (h : bytesAt shellMem value 1 = 0) :
    VarCallFits (shellUser vars shell) (.declareVar 0x400000 value perm isGlobal) :=
  ⟨shellUser_isVarName vars shell, shellUser_fits vars shell _ (by decide) h⟩

/-- Two shells declare "x": the first call is by shell 2, the second, read-only, by shell 1, and
then shell 2 makes its variable global. At last shell 1 gets "x". -/
def coverCall : ℕ → PtrCall
  | 0 => .declareVar 0x400000 0x400010 0 0
  | 1 => .declareVar 0x400000 0x400020 UserKern.varRdonly 0
  | 2 => .declareVar 0x400000 0x400030 0 1
  | _ => .getVar 0x400000 0x400040
def coverShell (t : ℕ) : Word := if t = 0 ∨ t = 2 then 2 else 1

lemma coverShell_ne (t : ℕ) : coverShell t ≠ 0 := by
  unfold coverShell
  split_ifs <;> decide

lemma coverCall_fits (t : ℕ) (vars : ℕ → BitVec 8) :
    VarCallFits (shellUser vars (coverShell t)) (coverCall t) := by
  match t with
  | 0 => exact declare_fits vars _ _ _ (by decide)
  | 1 => exact declare_fits vars _ _ _ (by decide)
  | 2 => exact declare_fits vars _ _ _ (by decide)
  | _ + 3 => exact shellUser_isVarName vars _

/-- The tables of the run. -/
lemma coverTable : varTable (playVars coverCall coverShell 1) =
      Function.update (fun _ => ⟨[], [], 0, 0⟩) 0 ⟨[0x78], [0x31], 2, 0⟩ ∧
    playRes coverCall coverShell 1 = 0 ∧ varTable (playVars coverCall coverShell 2) =
      Function.update (varTable (playVars coverCall coverShell 1)) 1
        ⟨[0x78], [0x32], 1, UserKern.varRdonly⟩ ∧
    varTable (playVars coverCall coverShell 3) =
      Function.update (varTable (playVars coverCall coverShell 2)) 0 ⟨[0x78], [0x33], 0, 0⟩ := by
  have hshell : coverShell 0 = 2 ∧ coverShell 1 = 1 ∧ coverShell 2 = 2 := by decide
  have h1 : varTable (playVars coverCall coverShell 1) =
      Function.update (fun _ => ⟨[], [], 0, 0⟩) 0 ⟨[0x78], [0x31], 2, 0⟩ := by
    have hdecl := play_declare coverShell_ne coverCall_fits (t := 0) rfl fun v s =>
      (shellUser_value v s).1
    rw [hshell.1, playVars, varTable_noVars, VarTable.declare_eq (r := 0)] at hdecl
    · exact (Prod.ext_iff.mp hdecl).2
    · refine VarTable.slot_of_free ?_ (by decide) rfl fun i hi => absurd hi (Nat.not_lt_zero i)
      rw [VarTable.find_eq_none_iff]
      exact fun i _ => rfl
    · decide
  have h2 := play_declare coverShell_ne coverCall_fits (t := 1) rfl fun v s =>
    (shellUser_value v s).2.1
  rw [hshell.2.1, VarTable.declare_eq (r := 1), Prod.mk.injEq] at h2
  · refine ⟨h1, h2.1, h2.2, ?_⟩
    have h3 := play_declare coverShell_ne coverCall_fits (t := 2) rfl fun v s =>
      (shellUser_value v s).2.2
    rw [hshell.2.2, VarTable.declare_eq (r := 0)] at h3
    · exact (Prod.ext_iff.mp h3).2
    · refine VarTable.slot_of_find (VarTable.find_eq_some_iff.mpr ?_)
      rw [h2.2, h1]
      exact ⟨by decide, by decide, fun i hi => absurd hi (Nat.not_lt_zero i)⟩
    · rw [h2.2, h1]
      decide
  · rw [h1]
    refine VarTable.slot_of_free ?_ (by decide) rfl fun i hi => ?_
    · rw [VarTable.find_eq_none_iff]
      intro i _
      rcases Nat.eq_zero_or_pos i with rfl | hi
      · decide
      · rw [VarTable.sees, Function.update_of_ne hi.ne']
        rfl
    · rw [Nat.lt_one_iff.mp hi]
      decide
  · rw [h1]
    decide

/-- Shell 1 gets the value "3", not the "2" that it has declared read-only. -/
theorem not_readsDeclared : ¬ ∀ n σ call res, VarRun n σ call res → ReadsDeclared n σ call res := by
  intro hall
  have hrun := varRun_play (n := 4) coverShell_ne coverCall_fits
  obtain ⟨h1, hres, h2, h3⟩ := coverTable
  have hshell : coverShell 1 = 1 ∧ coverShell 3 = 1 := by decide
  obtain ⟨u', hget, -, huser⟩ := hall 4 _ _ _ hrun 1 3 (by decide) (by decide) 0x400000 0x400020
    UserKern.varRdonly 0 0x400000 0x400040 rfl (by decide) hres rfl (hshell.2.trans hshell.1.symm)
    ((shellUser_name _ _).trans (shellUser_name _ _).symm)
  -- entry 0 is global now, and it lies in front of the read-only one
  have hfind : (varTable (playVars coverCall coverShell 3)).find 1 [0x78] = some 0 := by
    rw [VarTable.find_eq_some_iff, h3]
    exact ⟨by decide, by decide, fun i hi => absurd hi (Nat.not_lt_zero i)⟩
  have hvalue : (varTable (playVars coverCall coverShell 3)).get 1 [0x78] = some [0x33] := by
    rw [VarTable.get, hfind, h3]
    rfl
  have hmem := play_getVar coverShell_ne coverCall_fits rfl hget
  rw [hshell.2, hvalue] at hmem
  rw [hmem, (shellUser_value _ _).2.1] at huser
  exact absurd (congrFun huser 0x400040) (by decide)

/-- The last three calls of the run alone: the global variable of shell 2 comes to lie behind the
read-only one. -/
theorem readOnly_constant_cover :
    VarRun 3 (fun t => shellUser (playVars (fun t => coverCall (t + 1))
        (fun t => coverShell (t + 1)) t) (coverShell (t + 1))) (fun t => coverCall (t + 1))
      (playRes (fun t => coverCall (t + 1)) fun t => coverShell (t + 1)) ∧
    ReadsDeclared 3 (fun t => shellUser (playVars (fun t => coverCall (t + 1))
        (fun t => coverShell (t + 1)) t) (coverShell (t + 1))) (fun t => coverCall (t + 1))
      (playRes (fun t => coverCall (t + 1)) fun t => coverShell (t + 1)) := by
  have hne := fun t => coverShell_ne (t + 1)
  have hfits := fun t => coverCall_fits (t + 1)
  have hrun := varRun_play (n := 3) hne hfits
  refine ⟨hrun, readOnly_constant hrun fun t ht => ?_⟩
  match t with
  | 0 => exact fun hg => absurd rfl hg
  | 2 => exact trivial
  | 1 =>
    -- the only read-only entry is the first one
    intro _ a r r' _ hro _
    have h1 := play_declare hne hfits (t := 0) rfl fun v s => (shellUser_value v s).2.1
    rw [playVars, varTable_noVars, VarTable.declare_eq (r := 0)] at h1
    · rcases Nat.eq_zero_or_pos r with rfl | hr
      · exact Nat.zero_le r'
      · have htable := congrFun (Prod.ext_iff.mp h1).2 r
        simp only [Nat.zero_add, Function.update_of_ne hr.ne'] at htable
        rw [shellUser_vars, VarTable.ReadOnly, htable] at hro
        exact absurd rfl hro
    · refine VarTable.slot_of_free ?_ (by decide) rfl fun i hi => absurd hi (Nat.not_lt_zero i)
      rw [VarTable.find_eq_none_iff]
      exact fun i _ => rfl
    · decide

/-- Shell 2 declares "x" global. -/
def globalCall (_ : ℕ) : PtrCall := .declareVar 0x400000 0x400010 0 1

/-- The local declaration of "x" by shell 1 takes the global variable away from shell 2. -/
theorem not_declareVar_local : ¬ ∀ u c va value perm b, u.kern.curenv = some c →
    WellFormedVars u.vars → Fits u va varNameLen → Fits u value varValueLen →
    (u.kern.envs c).shellId ≠ 0 → (u.kern.envs c).shellId ≠ b →
    ∀ r u', u.sysDeclareVar va value perm 0 = .ok (r, u') → SameGets u.vars u'.vars b := by
  intro hall
  have hne : ∀ _ : ℕ, (2 : Word) ≠ 0 := fun _ => by decide
  have hfits : ∀ t vars, VarCallFits (shellUser vars 2) (globalCall t) :=
    fun t vars => declare_fits vars _ _ _ (by decide)
  have hwf := (varRun_play (n := 1) hne hfits).wellFormed (t := 1) le_rfl
  have h1 := play_declare hne hfits (t := 0) rfl fun v s => (shellUser_value v s).1
  rw [playVars, varTable_noVars, VarTable.declare_eq (r := 0)] at h1
  · have htable : varTable (playVars globalCall (fun _ => 2) 1) =
        Function.update (fun _ => ⟨[], [], 0, 0⟩) 0 ⟨[0x78], [0x31], 0, 0⟩ := (Prod.ext_iff.mp h1).2
    have hname := shellUser_fits (playVars globalCall (fun _ => 2) 1) 1 0x400000 (n := varNameLen)
      (by decide) (by decide)
    have hvalue := shellUser_fits (playVars globalCall (fun _ => 2) 1) 1 0x400020
      (n := varValueLen) (by decide) (by decide)
    have ha : (1 : Word) ≠ 0 := by decide
    have hab : (1 : Word) ≠ 2 := by decide
    have hwf' : WellFormedVars (shellUser (playVars globalCall (fun _ => 2) 1) 1).vars := hwf
    have hcur : (shellUser (playVars globalCall (fun _ => 2) 1) 1).kern.curenv = some 0 := rfl
    obtain ⟨r, u', hr, h', heq⟩ : ∃ r u', (shellUser (playVars globalCall (fun _ => 2)
        1) 1).sysDeclareVar 0x400000 0x400020 0 0 = .ok (r, u') ∧ WellFormedVars u'.vars ∧ _ :=
      sysDeclareVar_table hcur hwf' hname hvalue
    refine not_sameGets (c := 0) rfl hwf' ha hab h' (Prod.ext_iff.mp heq).2 ?_
      (hall _ 0 0x400000 0x400020 0 2 rfl hwf' hname hvalue ha hab r u' hr)
    have hfind : ∀ s, (varTable (playVars globalCall (fun _ => 2) 1)).find s [0x78] = some 0 :=
      fun s => by
        rw [htable, VarTable.find_eq_some_iff]
        exact ⟨by decide, rfl, fun i hi => absurd hi (Nat.not_lt_zero i)⟩
    rw [shellUser_name, shellUser_vars]
    refine ⟨0, hfind _, ?_, ?_, hfind _, ?_⟩
    · rw [htable]
      rfl
    · rw [htable]
      decide
    · have hafter : (varTable (playVars globalCall (fun _ => 2) 1)).getAfter 0 2 [0x78] = none := by
        rw [htable, VarTable.getAfter, Option.map_eq_none_iff, List.find?_eq_none]
        intro i hi
        have hpos : i ≠ 0 := by
          have := List.mem_range'_1.mp hi
          omega
        rw [VarTable.sees, Function.update_of_ne hpos]
        exact Bool.false_ne_true
      rw [hafter]
      exact (Option.some_ne_none _).symm
  · refine VarTable.slot_of_free ?_ (by decide) rfl fun i hi => absurd hi (Nat.not_lt_zero i)
    rw [VarTable.find_eq_none_iff]
    exact fun i _ => rfl
  · decide

/-- In an empty table the declaration of "x" is a new variable, and shell 2 gets what it got. -/
theorem declareVar_local_noVars : ∃ r u',
    (shellUser noVars 1).sysDeclareVar 0x400000 0x400010 0 0 = .ok (r, u') ∧
      SameGets noVars u'.vars 2 := by
  obtain ⟨r, u', hr, -, hiff⟩ := declareVar_local_iff (shellUser noVars 1) 0 0x400000 0x400010 0 2
    rfl wellFormed_noVars (show (1 : Word) ≠ 0 by decide) (show (1 : Word) ≠ 2 by decide)
  refine ⟨r, u', hr, (hiff ⟨shellUser_fits _ _ _ (by decide) (by decide),
    shellUser_fits _ _ _ (by decide) (by decide)⟩).mpr ?_⟩
  rintro ⟨i, hf, -⟩
  rw [shellUser_vars, varTable_noVars] at hf
  have hsees := (VarTable.find_eq_some_iff.mp hf).2.1
  exact Bool.false_ne_true hsees

end MosVolca
