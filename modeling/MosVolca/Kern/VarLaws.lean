import MosVolca.Kern.ShellVars

/-!
# Laws of the shell variables

What a declaration does to later requests, and what the calls leave in the table over a whole run.
A shell can find two entries of one name, its own and a global one of another shell, and then
`sys_unset_var` removes the first one only. An unused entry can be read-only, if the empty name was
declared read-only, and then it is the one that the later declarations try to write.

## Main definitions

* `MosVolca.TableRun` — calls by environments of any shells, with any names.
* `MosVolca.UnsetRemoves` — a name that was unset is not found.
* `MosVolca.DeclareFailsForReason` — why a declaration fails.

## Main results

* `MosVolca.declareVar_law` — a declaration changes what is found for its own name.
* `MosVolca.unset_removes` — runs in which a global variable does not share its name.
* `MosVolca.declare_fails_for_reason` — runs in which no empty name is read-only.
-/

namespace MosVolca

open CString

variable {T T' : VarTable} {a b : Word} {name name' value : List (BitVec 8)} {perm isGlobal : Word}
  {i j r : ℕ}

/-! ## Declaring and getting -/

namespace VarTable

/-- What is found depends on what is seen. -/
lemma find_congr (h : ∀ i < UserKern.maxVarNum, T'.sees a name i = T.sees a name i) :
    T'.find a name = T.find a name :=
  List.find?_congr fun i hi => h i (List.mem_range.mp hi)

/-- The three ends of a declaration. -/
lemma declare_cases (T : VarTable) (a : Word) (name value : List (BitVec 8))
    (perm isGlobal : Word) :
    (T.slot a name = none ∧ T.declare a name value perm isGlobal = (-1, T)) ∨
    (∃ r, T.slot a name = some r ∧ T.ReadOnly r ∧
      T.declare a name value perm isGlobal = (-2, T)) ∨
    ∃ r, T.slot a name = some r ∧ ¬ T.ReadOnly r ∧ T.declare a name value perm isGlobal =
      (0, Function.update T r ⟨name, value, owner a isGlobal, perm⟩) := by
  unfold declare
  rcases hslot : T.slot a name with _ | r
  · exact .inl ⟨rfl, rfl⟩
  by_cases hro : T.ReadOnly r
  · exact .inr (.inl ⟨r, rfl, hro, if_pos hro⟩)
  · exact .inr (.inr ⟨r, rfl, hro, if_neg hro⟩)

lemma declare_readOnly (h : T.slot a name = some r) (hro : T.ReadOnly r) :
    T.declare a name value perm isGlobal = (-2, T) := by
  unfold declare
  rw [h]
  exact if_pos hro

/-- A name that was declared has the value. -/
lemma get_declare_self (hname : name ≠ []) (h : (T.declare a name value perm isGlobal).1 = 0) :
    (T.declare a name value perm isGlobal).2.get a name = some value := by
  obtain ⟨r, -, -, heq, hfind⟩ := find_declare hname h
  rw [get, hfind, Option.map_some, heq, Function.update_self]

/-- The entry that is written has the name, or none. -/
lemma name_of_slot (h : T.slot a name = some r) : (T r).name = name ∨ (T r).name = [] := by
  rcases slot_cases h with hf | ⟨-, hfree⟩
  · exact .inl (sees_iff.mp (find_eq_some_iff.mp hf).2.1).2.1
  · exact .inr hfree

/-- What the shells find for another name stays as it is. -/
lemma get_declare_of_ne (hne : name' ≠ name) :
    (T.declare a name value perm isGlobal).2.get b name' = T.get b name' := by
  rcases declare_cases T a name value perm isGlobal with ⟨-, h⟩ | ⟨r, -, -, h⟩ | ⟨r, hslot, -, h⟩
  · rw [h]
  · rw [h]
  · rw [h]
    -- the entry is not seen under the other name, neither before nor after
    have hbefore : T.sees b name' r = false := by
      rw [Bool.eq_false_iff, ne_eq, sees_iff]
      rintro ⟨hused, hname, -⟩
      rcases name_of_slot hslot with hs | hs
      · exact hne (hname.symm.trans hs)
      · exact hused hs
    have hsees : ∀ i, VarTable.sees (Function.update T r ⟨name, value, owner a isGlobal, perm⟩) b
        name' i = T.sees b name' i := by
      intro i
      by_cases hi : i = r
      · subst hi
        rw [hbefore, Bool.eq_false_iff, ne_eq, sees_iff, Function.update_self]
        exact fun hc => hne hc.2.1.symm
      · rw [sees, sees, Function.update_of_ne hi]
    have hfind := find_congr fun i (_ : i < UserKern.maxVarNum) => hsees i
    unfold get
    rw [hfind]
    refine Option.map_congr fun i hi => ?_
    have hir : i ≠ r := by
      rintro rfl
      rw [(find_eq_some_iff.mp hi).2.1] at hbefore
      cases hbefore
    change (Function.update T r _ i).value = (T i).value
    rw [Function.update_of_ne hir]

end VarTable

/-! ## The calls -/

variable {u : UserKern} {c : EnvPtr}

/-- The entry that `checkVar` comes to. -/
lemma checkVarLoop_mem {va : Word} {needfill : Bool} {l : List ℕ} {empty : Option ℕ}
    (h : (UserKern.checkVarLoop c va needfill l empty u).1 = some r) : r ∈ l ∨ empty = some r := by
  induction l generalizing empty u with
  | nil => exact .inr h
  | cons i l ih =>
    rw [UserKern.checkVarLoop] at h
    by_cases h0 : u.name i 0 = 0
    · rw [if_pos h0] at h
      rcases ih h with hl | he
      · exact .inl (List.mem_cons_of_mem _ hl)
      · split_ifs at he
        · exact .inl (Option.some.inj he ▸ List.mem_cons_self)
        · exact .inr he
    · rw [if_neg h0] at h
      simp only at h
      split_ifs at h
      · exact .inl (Option.some.inj h ▸ List.mem_cons_self)
      · exact (ih h).imp_left (List.mem_cons_of_mem _)

lemma checkVar_lt {va : Word} {needfill : Bool} (h : (u.checkVar c va needfill).1 = some r) :
    r < UserKern.maxVarNum :=
  List.mem_range.mp ((checkVarLoop_mem h).resolve_right (Option.some_ne_none _).symm)

/-- What `sys_get_var` does at every place of a table whose strings end within their fields. -/
def GetsAs (vars : ℕ → BitVec 8) (b : Word) (name : List (BitVec 8))
    (o : Option (List (BitVec 8))) : Prop :=
  ∀ (w : UserKern) (c : EnvPtr) (va buf : Word), w.vars = vars → w.kern.curenv = some c →
    (w.kern.envs c).shellId = b → w.nameAt va = name →
      getVarResult w va buf = .ok (getResult w.user buf o)

lemma getsAs_get {vars : ℕ → BitVec 8} (h : WellFormedVars vars) (b : Word)
    (name : List (BitVec 8)) : GetsAs vars b name ((varTable vars).get b name) := by
  rintro w c va buf rfl hcur rfl rfl
  exact getVarResult_eq hcur h va buf

/-- **The law of the variables**: after a `sys_declare_var` that returns 0, `sys_get_var` of the
name by the same shell returns 0 and the value, and what every shell gets for another name is what
it got before; if the declaration returns a negative value, the table is unchanged. -/
theorem declareVar_law (u : UserKern) (c : EnvPtr) (va value perm isGlobal : Word)
    (hcur : u.kern.curenv = some c) (h : WellFormedVars u.vars) (hname : IsVarName u va)
    (hvalue : Fits u value varValueLen) :
    ∃ r u', u.sysDeclareVar va value perm isGlobal = .ok (r, u') ∧ (r = 0 ∨ r.toInt < 0) ∧
      (r = 0 →
        GetsAs u'.vars (u.kern.envs c).shellId (u.nameAt va) (some (u.valueAt value)) ∧
        ∀ b name', name' ≠ u.nameAt va → ∃ o, GetsAs u.vars b name' o ∧ GetsAs u'.vars b name' o) ∧
      (r.toInt < 0 → u'.vars = u.vars) := by
  obtain ⟨r, u', hr, h', heq⟩ : ∃ r u', u.sysDeclareVar va value perm isGlobal = .ok (r, u') ∧
      WellFormedVars u'.vars ∧ (r, varTable u'.vars) = (varTable u.vars).declare
        (u.kern.envs c).shellId (u.nameAt va) (u.valueAt value) perm isGlobal :=
    sysDeclareVar_table hcur h hname.1 hvalue
  have hne : u.nameAt va ≠ [] := (not_congr (cstr_eq_nil_iff (by decide))).mpr hname.2
  have hres := congrArg Prod.fst heq
  have htable := congrArg Prod.snd heq
  simp only at hres htable
  refine ⟨r, u', hr, ?_, fun h0 => ⟨?_, fun b name' hname' => ?_⟩, fun hneg => ?_⟩
  · rw [hres]
    rcases VarTable.declare_cases (varTable u.vars) (u.kern.envs c).shellId (u.nameAt va)
      (u.valueAt value) perm isGlobal with ⟨-, h1⟩ | ⟨s, -, -, h1⟩ | ⟨s, -, -, h1⟩
    · rw [h1]
      exact .inr (show (-1 : Word).toInt < 0 by decide)
    · rw [h1]
      exact .inr (show (-2 : Word).toInt < 0 by decide)
    · exact .inl (by rw [h1])
  · rw [← VarTable.get_declare_self hne (hres.symm.trans h0), ← htable]
    exact getsAs_get h' _ _
  · refine ⟨_, getsAs_get h b name', ?_⟩
    rw [← VarTable.get_declare_of_ne hname', ← htable]
    exact getsAs_get h' b name'
  · rcases sysDeclareVar_cases u va value perm isGlobal hcur with
      ⟨-, l, h1⟩ | ⟨s, -, -, l, h1⟩ | ⟨s, u₁, -, -, h1, -⟩
    all_goals
      rw [hr, Except.ok.injEq, Prod.mk.injEq] at h1
    · rw [h1.2]
    · rw [h1.2]
    · rw [h1.1] at hneg
      exact absurd hneg (by decide)

/-- Shell 1 declares "x" in an empty table, and the call returns 0. -/
theorem declareVar_law_noVars : ∃ u',
    (shellUser noVars 1).sysDeclareVar 0x400000 0x400010 0 0 = .ok (0, u') ∧
      GetsAs u'.vars 1 [0x78] (some [0x31]) ∧
      ∀ b name', name' ≠ [0x78] → ∃ o, GetsAs noVars b name' o ∧ GetsAs u'.vars b name' o := by
  obtain ⟨r, u', hr, -, hset, -⟩ := declareVar_law (shellUser noVars 1) 0 0x400000 0x400010 0 0 rfl
    wellFormed_noVars (shellUser_isVarName _ _) (shellUser_fits _ _ _ (by decide) (by decide))
  rw [shellUser_name, (shellUser_value _ _).1] at hset
  have hok : ((shellUser noVars 1).sysDeclareVar 0x400000 0x400010 0 0).toOption.map Prod.fst =
      some 0 := by
    decide +kernel
  have h0 : r = 0 := by
    rw [hr] at hok
    exact Option.some.inj hok
  rw [h0] at hr
  exact ⟨u', hr, hset h0⟩

/-! ## Runs -/

/-- A run of `n` calls by environments of any shells, from an empty table: the states before the
calls, and the calls. Between two calls anything but the table may change. -/
structure TableRun (n : ℕ) (σ : ℕ → UserKern) (call : ℕ → PtrCall) : Prop where
  start : (σ 0).vars = fun _ => 0
  cur : ∀ t < n, ∃ c, (σ t).kern.curenv = some c
  step : ∀ t < n, ∃ r u', (call t).run (σ t) = .ok (some r, u') ∧ (σ (t + 1)).vars = u'.vars

variable {n t : ℕ} {σ : ℕ → UserKern} {call : ℕ → PtrCall}

/-- One call, on the table. -/
lemma TableRun.table (h : TableRun n σ call) (ht : t < n) (hwf : WellFormedVars (σ t).vars)
    (hfits : StringsFit (σ t) (call t)) :
    WellFormedVars (σ (t + 1)).vars ∧ varTable (σ (t + 1)).vars = tableAfter (σ t) (call t) := by
  obtain ⟨c, hcur⟩ := h.cur t ht
  obtain ⟨r, u', hr, hvars⟩ := h.step t ht
  obtain ⟨r₁, u₁, hrun, hwf', htable⟩ := hfits.run_eq hcur hwf
  obtain rfl : u₁ = u' := by
    rw [hrun] at hr
    exact (Prod.ext_iff.mp (Except.ok.inj hr)).2
  rw [hvars]
  exact ⟨hwf', htable⟩

/-- **A run** keeps what an empty table has and every call keeps. -/
lemma TableRun.induction {P : VarTable → Prop} {C : UserKern → PtrCall → Prop}
    (h : TableRun n σ call) (hfits : ∀ t < n, StringsFit (σ t) (call t))
    (hC : ∀ t < n, C (σ t) (call t)) (h0 : P fun _ => ⟨[], [], 0, 0⟩)
    (hstep : ∀ u call, C u call → P (varTable u.vars) → P (tableAfter u call)) (ht : t ≤ n) :
    WellFormedVars (σ t).vars ∧ P (varTable (σ t).vars) := by
  induction t with
  | zero =>
    rw [h.start]
    exact ⟨wellFormed_noVars, varTable_noVars ▸ h0⟩
  | succ t ih =>
    obtain ⟨hwf, hP⟩ := ih (by omega)
    obtain ⟨hwf', htable⟩ := h.table (by omega) hwf (hfits t (by omega))
    exact ⟨hwf', htable ▸ hstep _ _ (hC t (by omega)) hP⟩

/-- The calls of environments of the shells `shell` are a run. -/
lemma tableRun_play {shell : ℕ → Word}
    (hfits : ∀ t vars, StringsFit (shellUser vars (shell t)) (call t)) :
    TableRun n (fun t => shellUser (playVars call shell t) (shell t)) call := by
  have hrun : ∀ t vars, WellFormedVars vars → ∃ r u',
      (call t).run (shellUser vars (shell t)) = .ok (some r, u') ∧ WellFormedVars u'.vars :=
    fun t vars h => by
      obtain ⟨r, u', hr, h', -⟩ := @StringsFit.run_eq _ 0 rfl h _ (hfits t vars)
      exact ⟨r, u', hr, h'⟩
  have hplay : ∀ t, WellFormedVars (playVars call shell t) → ∃ r u',
      (call t).run (shellUser (playVars call shell t) (shell t)) = .ok (some r, u') ∧
        playVars call shell (t + 1) = u'.vars ∧ WellFormedVars u'.vars := by
    intro t h
    obtain ⟨r, u', hr, h'⟩ := hrun t _ h
    exact ⟨r, u', hr, by rw [playVars, hr], h'⟩
  have hwf : ∀ t, WellFormedVars (playVars call shell t) := by
    intro t
    induction t with
    | zero => exact wellFormed_noVars
    | succ t ih =>
      obtain ⟨r, u', -, hvars, h'⟩ := hplay t ih
      rw [hvars]
      exact h'
  refine ⟨rfl, fun t _ => ⟨0, rfl⟩, fun t _ => ?_⟩
  obtain ⟨r, u', hr, hvars, -⟩ := hplay t (hwf t)
  exact ⟨r, u', hr, hvars⟩

/-! ## Unsetting -/

namespace VarTable

/-- Two entries of the same name belong to different shells, and neither is global. -/
def OwnersApart (T : VarTable) : Prop :=
  ∀ i < UserKern.maxVarNum, ∀ j < UserKern.maxVarNum, i ≠ j → (T i).name ≠ [] →
    (T j).name = (T i).name → (T i).shellId ≠ 0 ∧ (T i).shellId ≠ (T j).shellId

/-- The entry is the only one of the name if the declaration makes it global. -/
def GlobalAlone (T : VarTable) (a : Word) (name : List (BitVec 8)) (isGlobal : Word) : Prop :=
  owner a isGlobal = 0 → name ≠ [] → ∀ r, T.slot a name = some r → ¬ T.ReadOnly r →
    ∀ i < UserKern.maxVarNum, i ≠ r → (T i).name ≠ name

lemma unset_eq (h : T.find a name = some r) (hro : ¬ T.ReadOnly r) :
    T.unset a name = (0, Function.update T r { T r with name := [] }) := by
  unfold unset
  rw [h]
  exact if_neg hro

/-- What `sys_unset_var` leaves if it returns 0. -/
lemma unset_eq_zero (h : (T.unset a name).1 = 0) :
    ∃ r, T.find a name = some r ∧ (T.unset a name).2 = Function.update T r { T r with name := [] } := by
  unfold unset at h ⊢
  rcases hf : T.find a name with _ | r
  · rw [hf] at h
    exact absurd (show (-1 : Word) = 0 from h) (by decide)
  rw [hf] at h
  by_cases hro : T.ReadOnly r
  · simp only [if_pos hro] at h
    exact absurd h (by decide)
  · exact ⟨r, rfl, congrArg Prod.snd (if_neg hro)⟩

/-- **When an unset name is gone**: exactly if the shell saw no second entry of it. -/
lemma find_unset_iff (h : (T.unset a name).1 = 0) :
    (T.unset a name).2.find a name = none ↔
      ∀ i < UserKern.maxVarNum, ∀ j < UserKern.maxVarNum, T.sees a name i = true →
        T.sees a name j = true → i = j := by
  obtain ⟨r, hf, heq⟩ := unset_eq_zero h
  obtain ⟨hr, hsees, -⟩ := find_eq_some_iff.mp hf
  have hgone : VarTable.sees (Function.update T r { T r with name := [] }) a name r = false := by
    rw [Bool.eq_false_iff, ne_eq, sees_iff, Function.update_self]
    exact fun hc => hc.1 rfl
  have hother : ∀ i, i ≠ r → VarTable.sees (Function.update T r { T r with name := [] }) a name i =
      T.sees a name i := by
    intro i hi
    rw [sees, sees, Function.update_of_ne hi]
  rw [heq, find_eq_none_iff]
  constructor
  · intro hnone
    have honly : ∀ i < UserKern.maxVarNum, T.sees a name i = true → i = r := by
      intro i hi hs
      by_contra hne
      have hfalse := hnone i hi
      rw [hother i hne, hs] at hfalse
      cases hfalse
    intro i hi j hj hsi hsj
    rw [honly i hi hsi, honly j hj hsj]
  · intro honly i hi
    by_cases hir : i = r
    · rw [hir]
      exact hgone
    · rw [hother i hir, Bool.eq_false_iff]
      exact fun hs => hir (honly i hi r hr hs hsees)

lemma OwnersApart.sees_unique (h : T.OwnersApart) (hi : i < UserKern.maxVarNum)
    (hj : j < UserKern.maxVarNum) (hsi : T.sees a name i = true) (hsj : T.sees a name j = true) :
    i = j := by
  by_contra hij
  obtain ⟨hu, hn, ho⟩ := sees_iff.mp hsi
  obtain ⟨hu', hn', ho'⟩ := sees_iff.mp hsj
  obtain ⟨h0, hne⟩ := h i hi j hj hij hu (hn'.trans hn.symm)
  obtain ⟨h0', -⟩ := h j hj i hi (Ne.symm hij) hu' (hn.trans hn'.symm)
  exact hne ((ho.resolve_left h0).trans (ho'.resolve_left h0').symm)

/-- The other entries of a name, before a declaration by `a`, belong to other shells, unless the
name is global. -/
lemma OwnersApart.others (h : T.OwnersApart) (hslot : T.slot a name = some r) (hname : name ≠ [])
    (hj : j < UserKern.maxVarNum) (hjr : j ≠ r) (hjn : (T j).name = name) :
    (T j).shellId ≠ 0 ∧ (T j).shellId ≠ a := by
  rcases slot_cases hslot with hf | ⟨hf, -⟩
  · obtain ⟨hr, hs, -⟩ := find_eq_some_iff.mp hf
    obtain ⟨hu, hn, ho⟩ := sees_iff.mp hs
    obtain ⟨h0, hne⟩ := h j hj r hr hjr (hjn ▸ hname) (hn.trans hjn.symm)
    obtain ⟨h0', -⟩ := h r hr j hj hjr.symm hu (hjn.trans hn.symm)
    exact ⟨h0, ho.resolve_left h0' ▸ hne⟩
  · have hnot := find_eq_none_iff.mp hf j hj
    rw [Bool.eq_false_iff, ne_eq, sees_iff] at hnot
    push Not at hnot
    exact hnot (hjn ▸ hname) hjn

/-- An entry that is written keeps the owners apart if it is apart from the others of its name. -/
lemma OwnersApart.update {x : VarEntry} (h : T.OwnersApart)
    (hx : ∀ j < UserKern.maxVarNum, j ≠ r → x.name ≠ [] → (T j).name = x.name →
      x.shellId ≠ 0 ∧ (T j).shellId ≠ 0 ∧ (T j).shellId ≠ x.shellId) :
    OwnersApart (Function.update T r x) := by
  intro i hi j hj hij
  by_cases hir : i = r
  · have hjr : j ≠ r := fun hc => hij (hir.trans hc.symm)
    rw [hir, Function.update_self, Function.update_of_ne hjr]
    intro hname hjn
    obtain ⟨ho, -, hne⟩ := hx j hj hjr hname hjn
    exact ⟨ho, hne.symm⟩
  · rw [Function.update_of_ne hir]
    by_cases hjr : j = r
    · rw [hjr, Function.update_self]
      intro hname hjn
      exact (hx i hi hir (hjn ▸ hname) hjn.symm).2
    · rw [Function.update_of_ne hjr]
      exact h i hi j hj hij

/-- **A declaration** keeps the owners apart. -/
lemma OwnersApart.declare (h : T.OwnersApart) (hg : T.GlobalAlone a name isGlobal)
    (value : List (BitVec 8)) (perm : Word) :
    (T.declare a name value perm isGlobal).2.OwnersApart := by
  rcases declare_cases T a name value perm isGlobal with ⟨-, hd⟩ | ⟨r, -, -, hd⟩ |
    ⟨r, hslot, hro, hd⟩
  · rw [hd]
    exact h
  · rw [hd]
    exact h
  rw [hd]
  refine h.update fun j hj hjr hname hjn => ?_
  have howner : owner a isGlobal ≠ 0 := fun h0 => hg h0 hname r hslot hro j hj hjr hjn
  obtain ⟨h0, hne⟩ := h.others hslot hname hj hjr hjn
  refine ⟨howner, h0, ?_⟩
  change (T j).shellId ≠ owner a isGlobal
  unfold owner at howner ⊢
  split_ifs at howner ⊢ with hc
  · exact absurd rfl howner
  · exact hne

/-- `sys_unset_var` keeps them apart. -/
lemma OwnersApart.unset (h : T.OwnersApart) (a : Word) (name : List (BitVec 8)) :
    (T.unset a name).2.OwnersApart := by
  unfold VarTable.unset
  rcases T.find a name with _ | r
  · exact h
  by_cases hro : T.ReadOnly r
  · simp only [if_pos hro]
    exact h
  · simp only [if_neg hro]
    exact h.update fun j _ _ hname => absurd rfl hname

end VarTable

/-- The condition on a call: its strings end within their fields, and a declaration that makes a
variable global finds no other entry of the name. -/
def DeclaresAlone (u : UserKern) (call : PtrCall) : Prop :=
  StringsFit u call ∧ match call with
    | .declareVar varName _ _ isGlobal =>
      (varTable u.vars).GlobalAlone (shellOf u) (u.nameAt varName) isGlobal
    | _ => True

/-- **Unsetting removes**: after a `sys_unset_var` of the table that returns 0, a `sys_get_var` of
the name by the same shell returns -1. -/
def UnsetRemoves (vars : ℕ → BitVec 8) : Prop :=
  ∀ (u : UserKern) (c : EnvPtr) (va : Word) (u' : UserKern), u.vars = vars →
    u.kern.curenv = some c → u.sysUnsetVar va = .ok (0, u') →
      GetsAs u'.vars (u.kern.envs c).shellId (u.nameAt va) none

/-- The owners stay apart. -/
lemma ownersApart_tableAfter {call : PtrCall} (hC : DeclaresAlone u call)
    (h : (varTable u.vars).OwnersApart) : (tableAfter u call).OwnersApart := by
  cases call with
  | declareVar va value perm isGlobal => exact h.declare hC.2 _ _
  | unsetVar va => exact h.unset _ _
  | _ => exact h

/-- **Unset removes** in every run in which no global declaration shares its name with another
entry. -/
theorem unset_removes (h : TableRun n σ call) (hC : ∀ t < n, DeclaresAlone (σ t) (call t))
    (ht : t ≤ n) : UnsetRemoves (σ t).vars := by
  have hempty : VarTable.OwnersApart fun _ => ⟨[], [], 0, 0⟩ :=
    fun i _ j _ _ hused => absurd rfl hused
  obtain ⟨hwf, hapart⟩ := h.induction (fun t ht => (hC t ht).1) hC hempty
    (fun u call hC hP => ownersApart_tableAfter hC hP) ht
  intro u c va u' hvars hcur hunset
  rw [← hvars] at hwf hapart
  obtain ⟨r, u₁, hr, hwf', heq⟩ : ∃ r u₁, u.sysUnsetVar va = .ok (r, u₁) ∧
      WellFormedVars u₁.vars ∧ (r, varTable u₁.vars) =
        (varTable u.vars).unset (u.kern.envs c).shellId (u.nameAt va) := sysUnsetVar_table hcur hwf
  rw [hunset, Except.ok.injEq, Prod.mk.injEq] at hr
  obtain ⟨rfl, rfl⟩ := hr
  have hzero : ((varTable u.vars).unset (u.kern.envs c).shellId (u.nameAt va)).1 = 0 :=
    (congrArg Prod.fst heq).symm
  have hgone := (VarTable.find_unset_iff hzero).mpr fun i hi j hj => hapart.sees_unique hi hj
  have htable : varTable u'.vars =
      ((varTable u.vars).unset (u.kern.envs c).shellId (u.nameAt va)).2 := congrArg Prod.snd heq
  have hget := getsAs_get hwf' (u.kern.envs c).shellId (u.nameAt va)
  rw [VarTable.get, htable, hgone] at hget
  exact hget

/-- Shell 1 declares "x", and then shell 2 declares it as a global variable. -/
def twiceCall : ℕ → PtrCall
  | 0 => .declareVar 0x400000 0x400010 0 0
  | _ => .declareVar 0x400000 0x400020 0 1
def twiceShell (t : ℕ) : Word := if t = 0 then 1 else 2

lemma twiceShell_ne (t : ℕ) : twiceShell t ≠ 0 := by
  unfold twiceShell
  split_ifs <;> decide

lemma twiceCall_fits (t : ℕ) (vars : ℕ → BitVec 8) :
    VarCallFits (shellUser vars (twiceShell t)) (twiceCall t) := by
  match t with
  | 0 => exact declare_fits vars _ _ _ (by decide)
  | _ + 1 => exact declare_fits vars _ _ _ (by decide)

/-- Shell 1 declares "x" alone. -/
theorem unset_removes_twice : UnsetRemoves (playVars twiceCall twiceShell 1) := by
  have hrun : TableRun 1 (fun t => shellUser (playVars twiceCall twiceShell t) (twiceShell t))
      twiceCall := tableRun_play fun t vars => (twiceCall_fits t vars).strings
  have hC : ∀ t < 1, DeclaresAlone (shellUser (playVars twiceCall twiceShell t) (twiceShell t))
      (twiceCall t) := by
    intro t ht
    refine ⟨(twiceCall_fits t _).strings, ?_⟩
    obtain rfl : t = 0 := by omega
    intro howner
    exact absurd (show (1 : Word) = 0 from howner) (by decide)
  have hremoves := unset_removes hrun hC (le_refl 1)
  rwa [shellUser_vars] at hremoves

/-- The tables of the run. -/
lemma twiceTable : varTable (playVars twiceCall twiceShell 1) =
      Function.update (fun _ => ⟨[], [], 0, 0⟩) 0 ⟨[0x78], [0x31], 1, 0⟩ ∧
    varTable (playVars twiceCall twiceShell 2) =
      Function.update (varTable (playVars twiceCall twiceShell 1)) 1 ⟨[0x78], [0x32], 0, 0⟩ := by
  have hshell : twiceShell 0 = 1 ∧ twiceShell 1 = 2 := by decide
  have h1 : varTable (playVars twiceCall twiceShell 1) =
      Function.update (fun _ => ⟨[], [], 0, 0⟩) 0 ⟨[0x78], [0x31], 1, 0⟩ := by
    have hdecl := play_declare twiceShell_ne twiceCall_fits (t := 0) rfl fun v s =>
      (shellUser_value v s).1
    rw [hshell.1, playVars, varTable_noVars, VarTable.declare_eq (r := 0)] at hdecl
    · exact (Prod.ext_iff.mp hdecl).2
    · refine VarTable.slot_of_free ?_ (by decide) rfl fun i hi => absurd hi (Nat.not_lt_zero i)
      rw [VarTable.find_eq_none_iff]
      exact fun i _ => rfl
    · decide
  refine ⟨h1, ?_⟩
  have h2 := play_declare twiceShell_ne twiceCall_fits (t := 1) rfl fun v s =>
    (shellUser_value v s).2.1
  rw [hshell.2, VarTable.declare_eq (r := 1)] at h2
  · exact (Prod.ext_iff.mp h2).2
  · -- the entry of shell 1 is not seen
    rw [h1]
    refine VarTable.slot_of_free ?_ (by decide) rfl fun i hi => ?_
    · rw [VarTable.find_eq_none_iff]
      intro i _
      rcases Nat.eq_zero_or_pos i with rfl | hi
      · decide
      · rw [VarTable.sees, Function.update_of_ne hi.ne']
        rfl
    · rw [Nat.lt_one_iff.mp hi]
      decide
  · rw [h1]
    decide

/-- The table with the two entries: shell 1 unsets its own and then finds the global one. -/
lemma not_unsetRemoves {vars : ℕ → BitVec 8} (hwf : WellFormedVars vars)
    (hT : varTable vars = Function.update (Function.update (fun _ => ⟨[], [], 0, 0⟩) 0
      ⟨[0x78], [0x31], 1, 0⟩) 1 ⟨[0x78], [0x32], 0, 0⟩) : ¬ UnsetRemoves vars := by
  intro hremoves
  have hcur : (shellUser vars 1).kern.curenv = some 0 := rfl
  have hwf₁ : WellFormedVars (shellUser vars 1).vars := hwf
  obtain ⟨r, u', hr, hwf', heq⟩ : ∃ r u', (shellUser vars 1).sysUnsetVar 0x400000 = .ok (r, u') ∧
      WellFormedVars u'.vars ∧ (r, varTable u'.vars) =
        (varTable vars).unset 1 ((shellUser vars 1).nameAt 0x400000) :=
    sysUnsetVar_table hcur hwf₁
  rw [shellUser_name] at heq
  have hfind : (varTable vars).find 1 [0x78] = some 0 := by
    rw [VarTable.find_eq_some_iff, hT]
    exact ⟨by decide, by decide, fun i hi => absurd hi (Nat.not_lt_zero i)⟩
  have hzero : ((varTable vars).unset 1 [0x78]).1 = 0 := by
    have hro : ¬ (varTable vars).ReadOnly 0 := by
      rw [hT]
      decide
    rw [VarTable.unset_eq hfind hro]
  obtain ⟨hres, htable⟩ := Prod.ext_iff.mp heq
  simp only at hres htable
  rw [hzero] at hres
  subst hres
  -- both entries were seen, so one is left
  have hleft : (varTable u'.vars).get 1 [0x78] ≠ none := by
    rw [VarTable.get, ne_eq, Option.map_eq_none_iff, htable, VarTable.find_unset_iff hzero]
    intro honly
    have hs0 : (varTable vars).sees 1 [0x78] 0 = true :=
      (VarTable.find_eq_some_iff.mp hfind).2.1
    have hs1 : (varTable vars).sees 1 [0x78] 1 = true := by
      rw [hT]
      decide
    exact absurd (honly 0 (by decide) 1 (by decide) hs0 hs1) (by decide)
  have hget := getsAs_get hwf' 1 [0x78] (shellUser u'.vars 1) 0 0x400000 0 rfl rfl rfl
    (shellUser_name _ _)
  have hgot := hremoves _ 0 0x400000 u' rfl rfl hr (shellUser u'.vars 1) 0 0x400000 0 rfl rfl rfl
    ((shellUser_name _ _).trans (shellUser_name _ _).symm)
  rw [hget, Except.ok.injEq] at hgot
  rcases hv : (varTable u'.vars).get 1 [0x78] with _ | v
  · exact hleft hv
  · rw [hv] at hgot
    exact absurd (congrArg Prod.fst hgot) (show (0 : Word) ≠ -1 by decide)

/-- **A name that stays**: shell 1 unsets its "x" and then finds the global one of shell 2. -/
theorem not_unset_removes : ¬ ∀ n σ call, TableRun n σ call → ∀ t ≤ n, UnsetRemoves (σ t).vars := by
  intro hall
  have hrun : TableRun 2 (fun t => shellUser (playVars twiceCall twiceShell t) (twiceShell t))
      twiceCall := tableRun_play fun t vars => (twiceCall_fits t vars).strings
  have hwf := (varRun_play (n := 2) twiceShell_ne twiceCall_fits).wellFormed le_rfl
  have hremoves := hall 2 _ _ hrun 2 le_rfl
  obtain ⟨h1, h2⟩ := twiceTable
  rw [shellUser_vars] at hwf hremoves
  exact not_unsetRemoves hwf (h2.trans (by rw [h1])) hremoves

/-! ## Read-only entries without a name -/

/-- No unused entry is read-only. -/
def VarTable.UnusedWritable (T : VarTable) : Prop :=
  ∀ i < UserKern.maxVarNum, (T i).name = [] → ¬ T.ReadOnly i

/-- The condition on a call: its strings end within their fields, and the empty name is not
declared read-only. -/
def NamesReadOnly (u : UserKern) (call : PtrCall) : Prop :=
  StringsFit u call ∧ match call with
    | .declareVar varName _ perm _ => u.nameAt varName = [] → perm &&& UserKern.varRdonly = 0
    | _ => True

/-- **A declaration fails only for a reason**: -2 means that a variable of the name that the caller
sees is read-only, and -1 that it sees none and every entry is used. -/
def DeclareFailsForReason (vars : ℕ → BitVec 8) : Prop :=
  ∀ (u : UserKern) (c : EnvPtr) (va value perm isGlobal r : Word) (u' : UserKern), u.vars = vars →
    u.kern.curenv = some c → bytesAt u.user va 0 ≠ 0 →
    u.sysDeclareVar va value perm isGlobal = .ok (r, u') →
      (r = -2 → ∃ i < UserKern.maxVarNum,
        (varTable vars).sees (u.kern.envs c).shellId (u.nameAt va) i = true ∧
          (varTable vars).ReadOnly i) ∧
      (r = -1 → ∀ i < UserKern.maxVarNum,
        (varTable vars).sees (u.kern.envs c).shellId (u.nameAt va) i = false ∧
          (varTable vars i).name ≠ [])

/-- An entry that is written is used or can be written again. -/
lemma VarTable.UnusedWritable.update {x : VarEntry} (h : T.UnusedWritable)
    (hx : x.name = [] → x.perm &&& UserKern.varRdonly = 0) :
    UnusedWritable (Function.update T r x) := by
  intro i hi
  rw [ReadOnly]
  by_cases hir : i = r
  · rw [hir, Function.update_self]
    exact fun hname => not_not.mpr (hx hname)
  · rw [Function.update_of_ne hir]
    exact h i hi

/-- The unused entries stay writable. -/
lemma unusedWritable_tableAfter {call : PtrCall} (hC : NamesReadOnly u call)
    (h : (varTable u.vars).UnusedWritable) : (tableAfter u call).UnusedWritable := by
  cases call with
  | declareVar va value perm isGlobal =>
    change (VarTable.declare (varTable u.vars) _ _ _ _ _).2.UnusedWritable
    rcases VarTable.declare_cases (varTable u.vars) (shellOf u) (u.nameAt va) (u.valueAt value) perm
      isGlobal with ⟨-, hd⟩ | ⟨r, -, -, hd⟩ | ⟨r, hslot, hro, hd⟩
    · rw [hd]
      exact h
    · rw [hd]
      exact h
    · rw [hd]
      exact h.update hC.2
  | unsetVar va =>
    change (VarTable.unset (varTable u.vars) _ _).2.UnusedWritable
    unfold VarTable.unset
    rcases (varTable u.vars).find (shellOf u) (u.nameAt va) with _ | r
    · exact h
    by_cases hro : (varTable u.vars).ReadOnly r
    · simp only [if_pos hro]
      exact h
    · simp only [if_neg hro]
      exact h.update fun _ => not_not.mp hro
  | _ => exact h

/-- Why the search comes to an entry that cannot be written. -/
lemma VarTable.sees_of_slot (h : T.UnusedWritable) (hslot : T.slot a name = some r)
    (hro : T.ReadOnly r) : r < UserKern.maxVarNum ∧ T.sees a name r = true := by
  rcases slot_cases hslot with hf | ⟨-, hfree⟩
  · exact ⟨(find_eq_some_iff.mp hf).1, (find_eq_some_iff.mp hf).2.1⟩
  · exact absurd hro (h r (slot_lt hslot) hfree)

/-- Why it comes to none. -/
lemma VarTable.slot_eq_none (h : T.slot a name = none) (hi : i < UserKern.maxVarNum) :
    T.sees a name i = false ∧ (T i).name ≠ [] := by
  unfold slot at h
  rw [Option.or_eq_none_iff] at h
  refine ⟨find_eq_none_iff.mp h.1 i hi, ?_⟩
  have hused := List.find?_eq_none.mp h.2 i (List.mem_range.mpr hi)
  simpa using hused

/-- **Declaring fails only for a reason** in every run in which the empty name is not declared
read-only. -/
theorem declare_fails_for_reason (h : TableRun n σ call)
    (hC : ∀ t < n, NamesReadOnly (σ t) (call t)) (ht : t ≤ n) :
    DeclareFailsForReason (σ t).vars := by
  have hempty : VarTable.UnusedWritable fun _ => ⟨[], [], 0, 0⟩ :=
    fun i _ _ hro => hro (show (0 : Word) &&& UserKern.varRdonly = 0 by decide)
  obtain ⟨hwf, hfree⟩ := h.induction (fun t ht => (hC t ht).1) hC hempty
    (fun u call hC hP => unusedWritable_tableAfter hC hP) ht
  rintro u c va value perm isGlobal r u' hvars hcur - hr
  rw [← hvars] at hwf hfree ⊢
  obtain ⟨l, hl⟩ := checkVar_table hwf c va true
  have hslot : (u.checkVar c va true).1 =
      (varTable u.vars).slot (u.kern.envs c).shellId (u.nameAt va) := by
    rw [hl, if_pos rfl, UserKern.nameAt]
  rcases sysDeclareVar_cases u va value perm isGlobal hcur with ⟨hn, l', hd⟩ | ⟨s, hs, hro, l', hd⟩ |
    ⟨s, u₁, -, -, hd, -⟩
  all_goals
    rw [hr, Except.ok.injEq, Prod.mk.injEq] at hd
    rw [hd.1]
  · refine ⟨fun hc => absurd hc (by decide), fun _ i hi => ?_⟩
    exact VarTable.slot_eq_none (hslot.symm.trans hn) hi
  · refine ⟨fun _ => ?_, fun hc => absurd hc (by decide)⟩
    obtain ⟨hlt, hsees⟩ := VarTable.sees_of_slot hfree (hslot.symm.trans hs) hro
    exact ⟨s, hlt, hsees, hro⟩
  · exact ⟨fun hc => absurd hc (by decide), fun hc => absurd hc (by decide)⟩

/-- Shell 1 declares the empty name, or "x", read-only. -/
def emptyCall (_ : ℕ) : PtrCall := .declareVar 0x400040 0x400010 UserKern.varRdonly 0
def readOnlyCall (_ : ℕ) : PtrCall := .declareVar 0x400000 0x400010 UserKern.varRdonly 0

lemma readOnlyCall_fits (t : ℕ) (vars : ℕ → BitVec 8) :
    StringsFit (shellUser vars 1) (readOnlyCall t) :=
  (declare_fits vars _ _ _ (by decide)).strings

lemma emptyCall_fits (t : ℕ) (vars : ℕ → BitVec 8) :
    StringsFit (shellUser vars 1) (emptyCall t) :=
  ⟨shellUser_fits vars 1 _ (by decide) (by decide), shellUser_fits vars 1 _ (by decide) (by decide)⟩

/-- Shell 1 declares "x" read-only. -/
theorem declare_fails_for_reason_readOnly :
    DeclareFailsForReason (playVars readOnlyCall (fun _ => 1) 1) := by
  have hrun : TableRun 1 (fun t => shellUser (playVars readOnlyCall (fun _ => 1) t) 1)
      readOnlyCall := tableRun_play readOnlyCall_fits
  have hC : ∀ t < 1, NamesReadOnly (shellUser (playVars readOnlyCall (fun _ => 1) t) 1)
      (readOnlyCall t) := by
    intro t _
    refine ⟨readOnlyCall_fits t _, fun hname => ?_⟩
    have hx : (shellUser (playVars readOnlyCall (fun _ => 1) t) 1).nameAt 0x400000 = [] := hname
    rw [shellUser_name] at hx
    cases hx
  have hreason := declare_fails_for_reason hrun hC (le_refl 1)
  rwa [shellUser_vars] at hreason

/-- The table in which the first entry is unused and read-only: shell 1 cannot declare "x". -/
lemma not_declareFailsForReason {vars : ℕ → BitVec 8} (hwf : WellFormedVars vars)
    (hT : varTable vars = Function.update (fun _ => ⟨[], [], 0, 0⟩) 0
      ⟨[], [0x31], 1, UserKern.varRdonly⟩) : ¬ DeclareFailsForReason vars := by
  intro hreason
  have hnone : ∀ i, (varTable vars).sees 1 [0x78] i = false := by
    intro i
    rw [hT]
    by_cases hi : i = 0
    · rw [hi]
      decide
    · rw [VarTable.sees, Function.update_of_ne hi]
      rfl
  have hslot : (varTable vars).slot 1 [0x78] = some 0 := by
    refine VarTable.slot_of_free ?_ (by decide) (by rw [hT]; rfl)
      fun i hi => absurd hi (Nat.not_lt_zero i)
    exact VarTable.find_eq_none_iff.mpr fun i _ => hnone i
  have hro : (varTable vars).ReadOnly 0 := by
    rw [hT]
    decide
  have hcur : (shellUser vars 1).kern.curenv = some 0 := rfl
  have hwf₁ : WellFormedVars (shellUser vars 1).vars := hwf
  have hfits : StringsFit (shellUser vars 1) (readOnlyCall 0) := readOnlyCall_fits 0 vars
  obtain ⟨r, u', hr, -, heq⟩ : ∃ r u', (shellUser vars 1).sysDeclareVar 0x400000 0x400010 0 0 =
      .ok (r, u') ∧ WellFormedVars u'.vars ∧ (r, varTable u'.vars) =
        (varTable vars).declare 1 ((shellUser vars 1).nameAt 0x400000)
          ((shellUser vars 1).valueAt 0x400010) 0 0 :=
    sysDeclareVar_table hcur hwf₁ hfits.1 hfits.2
  rw [shellUser_name, VarTable.declare_readOnly hslot hro, Prod.mk.injEq] at heq
  obtain ⟨i, -, hsees, -⟩ := (hreason (shellUser vars 1) 0 0x400000 0x400010 0 0 r u' rfl rfl
    (shellUser_isVarName vars 1).2 hr).1 heq.1
  have hx : (varTable vars).sees 1 ((shellUser vars 1).nameAt 0x400000) i = true := hsees
  rw [shellUser_name, hnone i] at hx
  cases hx

/-- The table after the empty name was declared read-only. -/
lemma emptyTable : tableAfter (shellUser noVars 1) (emptyCall 0) =
    Function.update (fun _ => ⟨[], [], 0, 0⟩) 0 ⟨[], [0x31], 1, UserKern.varRdonly⟩ := by
  have hname : (shellUser noVars 1).nameAt 0x400040 = [] :=
    (cstr_eq_nil_iff (by decide)).mpr (show shellMem (0x400040 + 0) = 0 by decide)
  have hafter : tableAfter (shellUser noVars 1) (emptyCall 0) =
      (VarTable.declare (varTable noVars) 1 ((shellUser noVars 1).nameAt 0x400040)
        ((shellUser noVars 1).valueAt 0x400010) UserKern.varRdonly 0).2 := rfl
  rw [hafter, hname, (shellUser_value _ _).1, varTable_noVars, VarTable.declare_eq (r := 0)]
  · rfl
  · refine VarTable.slot_of_free ?_ (by decide) rfl fun i hi => absurd hi (Nat.not_lt_zero i)
    rw [VarTable.find_eq_none_iff]
    exact fun i _ => rfl
  · decide

/-- **A declaration that fails without a reason**: shell 1 declares the empty name read-only, and
then it cannot declare "x", though the table has no variable. -/
theorem not_declare_fails_for_reason :
    ¬ ∀ n σ call, TableRun n σ call → ∀ t ≤ n, DeclareFailsForReason (σ t).vars := by
  intro hall
  have hrun : TableRun 1 (fun t => shellUser (playVars emptyCall (fun _ => 1) t) 1) emptyCall :=
    tableRun_play emptyCall_fits
  have hreason := hall 1 _ _ hrun 1 le_rfl
  have hstart : WellFormedVars (shellUser (playVars emptyCall (fun _ => 1) 0) 1).vars :=
    wellFormed_noVars
  obtain ⟨hwf, htable⟩ := hrun.table (t := 0) (by decide) hstart (emptyCall_fits 0 _)
  exact not_declareFailsForReason hwf (htable.trans emptyTable) hreason

end MosVolca
