import MosVolca.Kern.UserCopy
import MosVolca.Kern.Ipc

/-!
# User pointers

Which of the system calls that take pointers stay below `UTOP`. The four calls that check their
pointers do for every argument; the six calls on paths and variables check nothing, and stay below
`UTOP` exactly if the strings that they go through end there.

## Main definitions

* `MosVolca.PtrCall.Guarded` — the kernel touches user space only, and refuses other buffers.
* `MosVolca.PointersBelow` — the condition on the arguments.

## Main results

* `MosVolca.guarded_iff` — when a call is guarded.
-/

namespace MosVolca

open ByteLoop

variable {u u' : UserKern} {cur e : EnvPtr} {va varName buf : Word} {s : ℕ → BitVec 8} {n : ℕ}

/-- The user-side addresses touched so far are below `UTOP`. -/
def UserKern.Below (u : UserKern) : Prop := ∀ a ∈ u.touched, a < utop

/-- The string `s`, put at `va`, ends below `UTOP`. -/
def EndsBelow (va : Word) (s : ℕ → BitVec 8) : Prop := ∃ n, s n = 0 ∧ va.toNat + n < utop.toNat

/-- The comparison of `p` with the string at `va` ends below `UTOP`. -/
def ComparesBelow (u : UserKern) (p : ℕ → BitVec 8) (va : Word) : Prop :=
  ∃ n, strcmpStop p (bytesAt u.user va) n = true ∧ va.toNat + n < utop.toNat

/-- `checkVar` ends its search at the variable `i`. -/
def UserKern.Matches (u : UserKern) (cur : EnvPtr) (varName : Word) (i : ℕ) : Prop :=
  u.name i 0 ≠ 0 ∧ strcmpEq (u.name i) (bytesAt u.user varName) = true ∧ u.isAllow cur i = true

/-- `sys_get_all_var` copies the variable `i`. -/
def UserKern.listed (u : UserKern) (cur : EnvPtr) (i : ℕ) : Bool :=
  u.name i 0 != 0 && u.isAllow cur i

/-- The comparisons of `checkVar` end below `UTOP`. -/
def SearchesBelow (u : UserKern) (cur : EnvPtr) (varName : Word) : Prop :=
  ∀ i < UserKern.maxVarNum, u.name i 0 ≠ 0 → (∀ j < i, ¬ u.Matches cur varName j) →
    ComparesBelow u (u.name i) varName

/-- The condition on the arguments of a call: the strings that it copies end below `UTOP`. -/
def PointersBelow (u : UserKern) (cur : EnvPtr) : PtrCall → Prop
  | .getEnvPath envid envPath =>
    ∀ e, envid2env u.kern envid true = .ok (.ok (some e)) →
      EndsBelow envPath (u.kern.envs e).path
  | .changeDir envPath changeParent =>
    -- the call ends at once if the parent cannot be found
    (changeParent = 1 → (u.kern.envs cur).parentId ≠ 0 →
      ∃ e, envid2env u.kern (u.kern.envs cur).parentId false = .ok (.ok (some e))) →
    EndsBelow envPath (bytesAt u.user envPath)
  | .declareVar varName value _ _ =>
    SearchesBelow u cur varName ∧
      ∀ r, (u.checkVar cur varName true).1 = some r → u.perm r &&& UserKern.varRdonly = 0 →
        EndsBelow varName (bytesAt u.user varName) ∧ EndsBelow value (bytesAt u.user value)
  | .unsetVar varName => SearchesBelow u cur varName
  | .getVar varName valueBuf =>
    SearchesBelow u cur varName ∧
      ∀ r, (u.checkVar cur varName false).1 = some r → EndsBelow valueBuf (u.value r)
  | .getAllVar buf =>
    ∀ i < UserKern.maxVarNum, u.listed cur i = true →
      EndsBelow (UserKern.bufAt buf ((List.range i).countP (u.listed cur))) (u.name i) ∧
      EndsBelow (UserKern.bufAt buf ((List.range i).countP (u.listed cur)) + 128) (u.value i)
  | _ => True

/-- The buffer that a call names by a pointer and a length; the extent of a string is only known
when it is read. -/
def PtrCall.range : PtrCall → List Word
  | .printCons s num => addrs s num.toNat
  | .setTrapframe _ tf => addrs tf sizeofTrapframe.toNat
  | .writeDev va _ len | .readDev va _ len => addrs va len.toNat
  | _ => []

/-- The kernel touches only user addresses below `UTOP`, and for a buffer that is not below `UTOP`
the call returns an error and changes nothing. -/
structure PtrCall.Guarded (u : UserKern) (c : PtrCall) : Prop where
  below : ∀ o u', c.run u = .ok (o, u') → u'.Below
  refused : ∀ o u', c.run u = .ok (o, u') → (∃ a ∈ c.range, ¬ a < utop) →
    ∃ r, o = some r ∧ r.toInt < 0 ∧ u' = u

/-- `envid2env` without the check of permissions, for an identifier other than 0. -/
lemma envid2env_false_cases (k : Kern) {envid : Word} (h : envid ≠ 0) :
    envid2env k envid false = .ok (.error (-eBadEnv)) ∨
      ∃ e, envid2env k envid false = .ok (.ok (some e)) := by
  unfold envid2env
  rw [if_neg h]
  by_cases hbad : (k.envs (envx envid)).status = .free ∨ (k.envs (envx envid)).id ≠ envid
  · simp only [if_pos hbad]
    exact Or.inl rfl
  · simp only [if_neg hbad]
    exact Or.inr ⟨_, rfl⟩

/-! ## Touched addresses -/

lemma addrs_below_iff :
    (∀ a ∈ addrs va n, a < utop) ↔ n = 0 ∨ va.toNat + n ≤ utop.toNat :=
  forall_addrs_lt (b := utop.toNat) (by decide)

lemma UserKern.below_touch : (u.touch va n).Below ↔ u.Below ∧ ∀ a ∈ addrs va n, a < utop := by
  simp only [Below, touch, List.mem_append, or_imp, forall_and]

lemma strExtent_below_iff : (∀ a ∈ addrs va (strExtent s), a < utop) ↔ EndsBelow va s := by
  refine (forall_extent_lt (b := utop.toNat) (by decide)).trans ?_
  simp only [beq_iff_eq, EndsBelow]

lemma UserKern.below_strcpyOut : (u.strcpyOut va s).Below ↔ u.Below ∧ EndsBelow va s := by
  rw [← strExtent_below_iff]
  exact below_touch

lemma UserKern.below_strcpyVars {off : ℕ} :
    (u.strcpyVars off va).Below ↔ u.Below ∧ EndsBelow va (bytesAt u.user va) := by
  rw [← strExtent_below_iff]
  exact below_touch

lemma UserKern.below_strcpyPath :
    (u.strcpyPath e va).Below ↔ u.Below ∧ EndsBelow va (bytesAt u.user va) := by
  rw [← strExtent_below_iff]
  exact below_touch

lemma strcmpExtent_below_iff {p : ℕ → BitVec 8} :
    (∀ a ∈ addrs va (strcmpExtent p (bytesAt u.user va)), a < utop) ↔ ComparesBelow u p va :=
  forall_extent_lt (b := utop.toNat) (by decide)

/-! ## The loops -/

/-- `checkVar` touches the string at `varName` for every variable up to the one that it finds. -/
lemma checkVarLoop_below (cur : EnvPtr) (varName : Word) (needfill : Bool) (first n : ℕ)
    (empty : Option ℕ) (u : UserKern) :
    ∃ l, (UserKern.checkVarLoop cur varName needfill (List.range' first n) empty u).2 =
        { u with touched := l } ∧
      ((∀ a ∈ l, a < utop) ↔ u.Below ∧ ∀ i, first ≤ i → i < first + n → u.name i 0 ≠ 0 →
        (∀ j, first ≤ j → j < i → ¬ u.Matches cur varName j) →
          ComparesBelow u (u.name i) varName) := by
  induction n generalizing first empty u with
  | zero =>
    refine ⟨u.touched, rfl, ⟨fun h => ⟨h, fun i h1 h2 => by omega⟩, fun h => h.1⟩⟩
  | succ n ih =>
    rw [List.range'_succ, UserKern.checkVarLoop]
    by_cases h0 : u.name first 0 = 0
    · -- an unused variable is skipped
      rw [if_pos h0]
      obtain ⟨l, hl, hiff⟩ := ih (first + 1)
        (if needfill && empty.isNone then some first else empty) u
      refine ⟨l, hl, hiff.trans (and_congr_right fun _ => ?_)⟩
      constructor
      · intro h i h1 h2 hi hj
        have hne : i ≠ first := fun he => hi (he ▸ h0)
        exact h i (by omega) (by omega) hi fun j h3 h4 => hj j (by omega) h4
      · intro h i h1 h2 hi hj
        refine h i (by omega) (by omega) hi fun j h3 h4 hm => ?_
        have hne : j ≠ first := fun he => hm.1 (he ▸ h0)
        exact hj j (by omega) h4 hm
    rw [if_neg h0]
    set u1 := u.touch varName (strcmpExtent (u.name first) (bytesAt u.user varName)) with hu1
    have hbelow : u1.Below ↔ u.Below ∧ ComparesBelow u (u.name first) varName := by
      rw [hu1, UserKern.below_touch, strcmpExtent_below_iff]
    by_cases hm : (strcmpEq (u1.name first) (bytesAt u1.user varName) && u1.isAllow cur first) = true
    · -- the search ends here
      have hmatch : u.Matches cur varName first :=
        ⟨h0, (Bool.and_eq_true_iff.mp hm).1, (Bool.and_eq_true_iff.mp hm).2⟩
      refine ⟨u1.touched, ?_, hbelow.trans (and_congr_right fun _ => ?_)⟩
      · rw [if_pos hm]
        rfl
      · constructor
        · intro h i h1 h2 hi hj
          rcases h1.eq_or_lt with rfl | hlt
          · exact h
          · exact absurd hmatch (hj first le_rfl hlt)
        · intro h
          exact h first le_rfl (by omega) h0 fun j h3 h4 => by omega
    · have hno : ¬ u.Matches cur varName first := fun h =>
        hm (Bool.and_eq_true_iff.mpr ⟨h.2.1, h.2.2⟩)
      obtain ⟨l, hl, hiff⟩ := ih (first + 1) empty u1
      refine ⟨l, ?_, hiff.trans ?_⟩
      · rw [if_neg hm]
        exact hl
      rw [hbelow, and_assoc]
      refine and_congr_right fun _ => ?_
      constructor
      · rintro ⟨hc, h⟩ i h1 h2 hi hj
        rcases h1.eq_or_lt with rfl | hlt
        · exact hc
        · exact h i hlt (by omega) hi fun j h3 h4 => hj j (by omega) h4
      · intro h
        refine ⟨h first le_rfl (by omega) h0 fun j h3 h4 => by omega, fun i h1 h2 hi hj => ?_⟩
        refine h i (by omega) (by omega) hi fun j h3 h4 => ?_
        rcases h3.eq_or_lt with rfl | hlt
        · exact hno
        · exact hj j hlt h4

/-- `checkVar` touches variables of the kernel only. -/
lemma checkVar_below (u : UserKern) (cur : EnvPtr) (varName : Word) (needfill : Bool) :
    ∃ l, (u.checkVar cur varName needfill).2 = { u with touched := l } ∧
      ((∀ a ∈ l, a < utop) ↔ u.Below ∧ SearchesBelow u cur varName) := by
  obtain ⟨l, hl, hiff⟩ := checkVarLoop_below cur varName needfill 0 UserKern.maxVarNum none u
  refine ⟨l, ?_, hiff.trans (and_congr_right fun _ => ?_)⟩
  · rw [← hl, UserKern.checkVar, List.range_eq_range']
  · simp only [Nat.zero_le, forall_const, Nat.zero_add, SearchesBelow]

/-- `sys_get_all_var` touches the strings of the listed variables, each at its place in `buf`. -/
lemma getAllVarLoop_below (first n cnt : ℕ) (u : UserKern) :
    (UserKern.getAllVarLoop cur buf (List.range' first n) cnt u).2.Below ↔
      u.Below ∧ ∀ i, first ≤ i → i < first + n → u.listed cur i = true →
        EndsBelow (UserKern.bufAt buf
          (cnt + (List.range' first (i - first)).countP (u.listed cur))) (u.name i) ∧
        EndsBelow (UserKern.bufAt buf
          (cnt + (List.range' first (i - first)).countP (u.listed cur)) + 128) (u.value i) := by
  induction n generalizing first cnt u with
  | zero => exact ⟨fun h => ⟨h, fun i h1 h2 => by omega⟩, fun h => h.1⟩
  | succ n ih =>
    -- the number of listed variables before `i`, with `first` counted on its own
    have hcount : ∀ i, first < i → (List.range' first (i - first)).countP (u.listed cur) =
        (if u.listed cur first = true then 1 else 0) +
          (List.range' (first + 1) (i - (first + 1))).countP (u.listed cur) := by
      intro i hi
      rw [show i - first = (i - (first + 1)) + 1 by omega, List.range'_succ, List.countP_cons,
        Nat.add_comm]
    rw [List.range'_succ, UserKern.getAllVarLoop]
    by_cases hlisted : u.listed cur first = true
    swap
    · -- the variable is skipped
      have hskip : (if u.name first 0 = 0 then
            UserKern.getAllVarLoop cur buf (List.range' (first + 1) n) cnt u
          else if u.isAllow cur first = true then
            UserKern.getAllVarLoop cur buf (List.range' (first + 1) n) (cnt + 1)
              ((u.strcpyOut (UserKern.bufAt buf cnt) (u.name first)).strcpyOut
                (UserKern.bufAt buf cnt + 128) (u.value first))
          else UserKern.getAllVarLoop cur buf (List.range' (first + 1) n) cnt u) =
          UserKern.getAllVarLoop cur buf (List.range' (first + 1) n) cnt u := by
        split_ifs with h0 hallow
        · rfl
        · exact absurd (Bool.and_eq_true_iff.mpr ⟨bne_iff_ne.mpr h0, hallow⟩) hlisted
        · rfl
      refine (iff_of_eq (congrArg (fun x => UserKern.Below x.2) hskip)).trans
        ((ih (first + 1) cnt u).trans (and_congr_right fun _ => ?_))
      constructor
      · intro h i h1 h2 hi
        have hne : i ≠ first := fun he => hlisted (he ▸ hi)
        rw [hcount i (by omega), if_neg hlisted, Nat.zero_add]
        exact h i (by omega) (by omega) hi
      · intro h i h1 h2 hi
        have := h i (by omega) (by omega) hi
        rwa [hcount i (by omega), if_neg hlisted, Nat.zero_add] at this
    · have h0 : u.name first 0 ≠ 0 := bne_iff_ne.mp (Bool.and_eq_true_iff.mp hlisted).1
      have hallow : u.isAllow cur first = true := (Bool.and_eq_true_iff.mp hlisted).2
      rw [if_neg h0, if_pos hallow]
      refine (ih (first + 1) (cnt + 1) _).trans ?_
      rw [UserKern.below_strcpyOut, UserKern.below_strcpyOut, and_assoc, and_assoc]
      refine and_congr_right fun _ => ?_
      constructor
      · rintro ⟨hn, hv, h⟩ i h1 h2 hi
        rcases h1.eq_or_lt with rfl | hlt
        · simp only [Nat.sub_self, List.range'_zero, List.countP_nil, Nat.add_zero]
          exact ⟨hn, hv⟩
        · rw [hcount i hlt, if_pos hlisted, ← Nat.add_assoc]
          exact h i hlt (by omega) hi
      · intro h
        have hfirst := h first le_rfl (by omega) hlisted
        simp only [Nat.sub_self, List.range'_zero, List.countP_nil, Nat.add_zero] at hfirst
        refine ⟨hfirst.1, hfirst.2, fun i h1 h2 hi => ?_⟩
        have := h i (by omega) (by omega) hi
        rwa [hcount i h1, if_pos hlisted, ← Nat.add_assoc] at this

/-- What the loop of `sys_change_dir` touches: nothing, if it ends before the first copy. -/
lemma changeDirLoop_below (va : Word) (fuel : ℕ) (parent : EnvPtr) (u : UserKern) :
    ∃ o u', UserKern.changeDirLoop va fuel parent u = .ok (o, u') ∧ u'.user = u.user ∧
      (u'.Below → u.Below) ∧ (u.Below → EndsBelow va (bytesAt u.user va) → u'.Below) := by
  induction fuel generalizing parent u with
  | zero => exact ⟨none, u, rfl, rfl, id, fun h _ => h⟩
  | succ fuel ih =>
    rw [UserKern.changeDirLoop]
    by_cases h0 : (u.kern.envs parent).parentId = 0
    · rw [if_pos h0]
      exact ⟨_, u, rfl, rfl, id, fun h _ => h⟩
    rw [if_neg h0]
    rcases envid2env_false_cases u.kern h0 with hid | ⟨p, hid⟩
    · rw [hid]
      exact ⟨_, u, rfl, rfl, id, fun h _ => h⟩
    · rw [hid]
      simp only [ok_bind, deref, pure_eq_ok]
      obtain ⟨o, u', hloop, huser, hback, hfwd⟩ := ih p (u.strcpyPath p va)
      refine ⟨o, u', hloop, huser, fun h => ?_, fun h hends => ?_⟩
      · exact (UserKern.below_strcpyPath.mp (hback h)).1
      · exact hfwd (UserKern.below_strcpyPath.mpr ⟨h, hends⟩) hends

/-! ## The calls that check -/

lemma toInt_neg_eInval : (-eInval : Word).toInt < 0 := by decide

/-- A buffer that passes `is_illegal_va_range` is below `UTOP`. -/
lemma addrs_below_of_legal {len : Word} (h : isIllegalVaRange va len = false) :
    ∀ a ∈ addrs va len.toNat, a < utop := by
  rw [addrs_below_iff]
  unfold isIllegalVaRange at h
  split_ifs at h with h0
  · exact Or.inl (by rw [h0]; rfl)
  · simp only [Bool.or_eq_false_iff, decide_eq_false_iff_not, BitVec.lt_def, BitVec.toNat_add,
      gt_iff_lt] at h
    have := va.isLt
    have := len.isLt
    omega

/-- `sys_print_cons` tests its pointer. -/
lemma printCons_guarded (s num : Word) (h0 : u.Below) : (PtrCall.printCons s num).Guarded u := by
  by_cases hbad : s + num > utop ∨ s ≥ utop ∨ s > s + num
  · have hrun : PtrCall.run u (.printCons s num) = .ok (some (-eInval), u) := by
      simp only [PtrCall.run, UserKern.sysPrintCons, if_pos hbad, pure_eq_ok]
    refine ⟨fun o u' h => ?_, fun o u' h _ => ?_⟩
    · rw [hrun, Except.ok.injEq, Prod.mk.injEq] at h
      exact h.2 ▸ h0
    · rw [hrun, Except.ok.injEq, Prod.mk.injEq] at h
      exact ⟨_, h.1.symm, toInt_neg_eInval, h.2.symm⟩
  · have hbelow : ∀ a ∈ addrs s num.toNat, a < utop := by
      rw [addrs_below_iff]
      simp only [not_or, BitVec.lt_def, BitVec.le_def, BitVec.toNat_add, gt_iff_lt, ge_iff_le] at hbad
      have := s.isLt
      have := num.isLt
      omega
    refine ⟨fun o u' h => ?_, fun o u' _ ⟨a, ha, hno⟩ => absurd (hbelow a ha) hno⟩
    simp only [PtrCall.run, UserKern.sysPrintCons, if_neg hbad, pure_eq_ok, Except.ok.injEq,
      Prod.mk.injEq] at h
    exact h.2 ▸ UserKern.below_touch.mpr ⟨h0, hbelow⟩

/-- `sys_set_trapframe` tests its pointer. -/
lemma setTrapframe_guarded (envid tf : Word) (h0 : u.Below) :
    (PtrCall.setTrapframe envid tf).Guarded u := by
  by_cases hbad : isIllegalVaRange tf sizeofTrapframe = true
  · have hrun : PtrCall.run u (.setTrapframe envid tf) = .ok (some (-eInval), u) := by
      simp only [PtrCall.run, UserKern.sysSetTrapframe, if_pos hbad, pure_eq_ok, ok_bind]
    refine ⟨fun o u' h => ?_, fun o u' h _ => ?_⟩
    · rw [hrun, Except.ok.injEq, Prod.mk.injEq] at h
      exact h.2 ▸ h0
    · rw [hrun, Except.ok.injEq, Prod.mk.injEq] at h
      exact ⟨_, h.1.symm, toInt_neg_eInval, h.2.symm⟩
  · have hbelow := addrs_below_of_legal (Bool.eq_false_iff.mpr hbad)
    refine ⟨fun o u' h => ?_, fun o u' _ ⟨a, ha, hno⟩ => absurd (hbelow a ha) hno⟩
    simp only [PtrCall.run, UserKern.sysSetTrapframe, if_neg hbad] at h
    obtain ⟨⟨r, u1⟩, hs, h⟩ := bind_eq_ok.mp h
    replace h := pure_pair_inj h
    obtain ⟨p, hid, hs⟩ := bind_eq_ok.mp hs
    rcases p with r' | p
    · replace hs := pure_pair_inj hs
      exact h.2 ▸ hs.2 ▸ h0
    · simp only [bind_eq_ok, pure_eq_ok, Except.ok.injEq, Prod.mk.injEq] at hs
      obtain ⟨e, -, -, rfl⟩ := hs
      exact h.2 ▸ UserKern.below_touch.mpr ⟨h0, hbelow⟩

/-- The calls on devices: they refuse a buffer or a device range, or touch the buffer. -/
lemma dev_guarded {c : PtrCall} {len : Word} (pa : Word) (hrange : c.range = addrs va len.toNat)
    (hbad : isIllegalVaRange va len = true ∨ isIllegalDevPa pa len = true →
      c.run u = .ok (some (-eInval), u))
    (hok : isIllegalVaRange va len = false → isIllegalDevPa pa len = false →
      ∃ o u', c.run u = .ok (o, u') ∧ u'.touched = u.touched ++ addrs va len.toNat)
    (h0 : u.Below) : c.Guarded u := by
  by_cases hcheck : isIllegalVaRange va len = true ∨ isIllegalDevPa pa len = true
  · have hrun := hbad hcheck
    refine ⟨fun o u' h => ?_, fun o u' h _ => ?_⟩
    · rw [hrun, Except.ok.injEq, Prod.mk.injEq] at h
      exact h.2 ▸ h0
    · rw [hrun, Except.ok.injEq, Prod.mk.injEq] at h
      exact ⟨_, h.1.symm, toInt_neg_eInval, h.2.symm⟩
  · simp only [not_or, Bool.not_eq_true] at hcheck
    have hbelow := addrs_below_of_legal hcheck.1
    obtain ⟨o', u1, hrun, ht⟩ := hok hcheck.1 hcheck.2
    refine ⟨fun o u' h => ?_, fun o u' _ ⟨a, ha, hno⟩ => absurd (hbelow a (hrange ▸ ha)) hno⟩
    rw [hrun, Except.ok.injEq, Prod.mk.injEq] at h
    have h' : (u.touch va len.toNat).Below := UserKern.below_touch.mpr ⟨h0, hbelow⟩
    unfold UserKern.Below at h' ⊢
    rw [← h.2, ht]
    exact h'

lemma writeDev_guarded (va pa len : Word) (h0 : u.Below) :
    (PtrCall.writeDev va pa len).Guarded u := by
  refine dev_guarded pa rfl (fun hbad => ?_) (fun h1 h2 => ?_) h0
  · simp only [PtrCall.run, UserKern.sysWriteDev]
    split_ifs with h1 h2
    · rfl
    · rfl
    · exact absurd hbad (by simp [h1, h2])
  · simp only [PtrCall.run, UserKern.sysWriteDev, h1, h2]
    exact ⟨_, _, rfl, rfl⟩

lemma readDev_guarded (va pa len : Word) (h0 : u.Below) :
    (PtrCall.readDev va pa len).Guarded u := by
  refine dev_guarded pa rfl (fun hbad => ?_) (fun h1 h2 => ?_) h0
  · simp only [PtrCall.run, UserKern.sysReadDev]
    split_ifs with h1 h2
    · rfl
    · rfl
    · exact absurd hbad (by simp [h1, h2])
  · simp only [PtrCall.run, UserKern.sysReadDev, h1, h2]
    exact ⟨_, _, rfl, rfl⟩

/-! ## The calls that do not check -/

/-- A call that names no buffer is guarded exactly if it touches user addresses only. -/
lemma guarded_iff_below {c : PtrCall} {o : Option Word} (hrange : c.range = [])
    (hrun : c.run u = .ok (o, u')) : c.Guarded u ↔ u'.Below := by
  constructor
  · intro h
    exact h.below o u' hrun
  · refine fun h => ⟨fun o1 u1 h1 => ?_, fun o1 u1 _ ⟨a, ha, _⟩ => ?_⟩
    · rw [hrun, Except.ok.injEq, Prod.mk.injEq] at h1
      exact h1.2 ▸ h
    · rw [hrange] at ha
      exact absurd ha List.not_mem_nil

/-- When `sys_get_env_path` touches no address of the kernel. -/
lemma getEnvPath_guarded_iff (hcur : u.kern.curenv = some cur) (h0 : u.Below)
    (envid envPath : Word) : (PtrCall.getEnvPath envid envPath).Guarded u ↔
      PointersBelow u cur (.getEnvPath envid envPath) := by
  have hret : (∃ r, envid2env u.kern envid true = .ok (.error r)) ∨
      ∃ e, envid2env u.kern envid true = .ok (.ok (some e)) := by
    unfold envid2env
    rw [hcur]
    simp only [deref, pure_eq_ok, ok_bind]
    split_ifs
    · exact Or.inr ⟨_, rfl⟩
    · exact Or.inl ⟨_, rfl⟩
    · exact Or.inl ⟨_, rfl⟩
    · exact Or.inr ⟨_, rfl⟩
  rcases hret with ⟨r, hid⟩ | ⟨e, hid⟩
  · have hrun : PtrCall.run u (.getEnvPath envid envPath) = .ok (some r, u) := by
      simp only [PtrCall.run, UserKern.sysGetEnvPath, hid, ok_bind, pure_eq_ok]
    rw [guarded_iff_below rfl hrun]
    exact ⟨fun _ e he => absurd (hid.symm.trans he) (by simp), fun _ => h0⟩
  · have hrun : PtrCall.run u (.getEnvPath envid envPath) =
        .ok (some 0, u.strcpyOut envPath (u.kern.envs e).path) := by
      simp only [PtrCall.run, UserKern.sysGetEnvPath, hid, ok_bind, deref, pure_eq_ok]
    rw [guarded_iff_below rfl hrun, UserKern.below_strcpyOut]
    constructor
    · intro h e' he
      obtain rfl : e = e' := by simpa using hid.symm.trans he
      exact h.2
    · intro h
      exact ⟨h0, h e hid⟩

/-- When `sys_change_dir` touches no address of the kernel. -/
lemma changeDir_guarded_iff (hcur : u.kern.curenv = some cur) (h0 : u.Below)
    (envPath changeParent : Word) : (PtrCall.changeDir envPath changeParent).Guarded u ↔
      PointersBelow u cur (.changeDir envPath changeParent) := by
  by_cases hcp : changeParent = 1
  swap
  · have hrun : PtrCall.run u (.changeDir envPath changeParent) =
        .ok (some 0, u.strcpyPath cur envPath) := by
      simp only [PtrCall.run, UserKern.sysChangeDir, hcur, deref, pure_eq_ok, ok_bind, if_neg hcp]
    rw [guarded_iff_below rfl hrun, UserKern.below_strcpyPath]
    exact ⟨fun h _ => h.2, fun h => ⟨h0, h fun h1 => absurd h1 hcp⟩⟩
  by_cases hp : (u.kern.envs cur).parentId = 0
  · -- the loop ends at once, and the path of the caller is set
    have hrun : PtrCall.run u (.changeDir envPath changeParent) =
        .ok (some 0, u.strcpyPath cur envPath) := by
      simp only [PtrCall.run, UserKern.sysChangeDir, hcur, deref, pure_eq_ok, ok_bind, if_pos hcp]
      rw [show nenv = 1023 + 1 from rfl, UserKern.changeDirLoop, if_pos hp]
      rfl
    rw [guarded_iff_below rfl hrun, UserKern.below_strcpyPath]
    exact ⟨fun h _ => h.2, fun h => ⟨h0, h fun _ h2 => absurd hp h2⟩⟩
  rcases envid2env_false_cases u.kern hp with hid | ⟨p, hid⟩
  · -- the parent is gone, and nothing is touched
    have hrun : PtrCall.run u (.changeDir envPath changeParent) = .ok (some (-eBadEnv), u) := by
      simp only [PtrCall.run, UserKern.sysChangeDir, hcur, deref, pure_eq_ok, ok_bind, if_pos hcp]
      rw [show nenv = 1023 + 1 from rfl, UserKern.changeDirLoop, if_neg hp, hid]
      rfl
    rw [guarded_iff_below rfl hrun]
    refine ⟨fun _ h => ?_, fun _ => h0⟩
    obtain ⟨e, he⟩ := h hcp hp
    exact absurd (hid.symm.trans he) (by simp)
  · -- the path of the parent is set first
    obtain ⟨o, u1, hloop, huser, hback, hfwd⟩ :=
      changeDirLoop_below envPath 1023 p (u.strcpyPath p envPath)
    have hfirst : UserKern.changeDirLoop envPath nenv cur u = .ok (o, u1) := by
      rw [show nenv = 1023 + 1 from rfl, UserKern.changeDirLoop, if_neg hp, hid]
      exact hloop
    have hend : ∃ o' u', PtrCall.run u (.changeDir envPath changeParent) = .ok (o', u') ∧
        (u'.Below → u1.Below) ∧ (u1.Below → EndsBelow envPath (bytesAt u.user envPath) →
          u'.Below) := by
      simp only [PtrCall.run, UserKern.sysChangeDir, hcur, deref, pure_eq_ok, ok_bind, if_pos hcp,
        hfirst]
      rcases o with _ | r | _
      · exact ⟨_, u1, rfl, id, fun h _ => h⟩
      · exact ⟨_, u1, rfl, id, fun h _ => h⟩
      · refine ⟨_, _, rfl, fun h => (UserKern.below_strcpyPath.mp h).1, fun h hends => ?_⟩
        refine UserKern.below_strcpyPath.mpr ⟨h, ?_⟩
        rw [huser]
        exact hends
    obtain ⟨o', u', hrun, hback', hfwd'⟩ := hend
    rw [guarded_iff_below rfl hrun]
    constructor
    · intro h _
      exact (UserKern.below_strcpyPath.mp (hback (hback' h))).2
    · intro h
      have hends := h fun _ _ => ⟨p, hid⟩
      exact hfwd' (hfwd (UserKern.below_strcpyPath.mpr ⟨h0, hends⟩) hends) hends

/-- When `sys_declare_var` touches no address of the kernel. -/
lemma declareVar_guarded_iff (hcur : u.kern.curenv = some cur) (h0 : u.Below)
    (varName value perm isGlobal : Word) :
    (PtrCall.declareVar varName value perm isGlobal).Guarded u ↔
      PointersBelow u cur (.declareVar varName value perm isGlobal) := by
  obtain ⟨l, hl, hiff⟩ := checkVar_below u cur varName true
  have hsearch : (∀ a ∈ l, a < utop) ↔ SearchesBelow u cur varName :=
    hiff.trans (and_iff_right h0)
  rcases hc : u.checkVar cur varName true with ⟨o, u1⟩
  obtain rfl : u1 = { u with touched := l } := by rw [← hl, hc]
  rcases o with _ | r
  · have hrun : PtrCall.run u (.declareVar varName value perm isGlobal) =
        .ok (some (-1), { u with touched := l }) := by
      simp only [PtrCall.run, UserKern.sysDeclareVar, hcur, deref, pure_eq_ok, ok_bind, hc]
    refine (guarded_iff_below rfl hrun).trans (hsearch.trans ?_)
    refine (and_iff_left fun r hr => ?_).symm
    rw [hc] at hr
    simp at hr
  by_cases hro : u.perm r &&& UserKern.varRdonly ≠ 0
  · have hro' : UserKern.perm { u with touched := l } r &&& UserKern.varRdonly ≠ 0 := hro
    have hrun : PtrCall.run u (.declareVar varName value perm isGlobal) =
        .ok (some (-2), { u with touched := l }) := by
      simp only [PtrCall.run, UserKern.sysDeclareVar, hcur, deref, pure_eq_ok, ok_bind, hc,
        if_pos hro']
    refine (guarded_iff_below rfl hrun).trans (hsearch.trans ?_)
    refine (and_iff_left fun r' hr hw => ?_).symm
    rw [hc, Option.some.injEq] at hr
    exact absurd hw (hr ▸ hro)
  · have hro' : ¬ UserKern.perm { u with touched := l } r &&& UserKern.varRdonly ≠ 0 := hro
    obtain ⟨u', hrun, ht⟩ : ∃ u', PtrCall.run u (.declareVar varName value perm isGlobal) =
        .ok (some 0, u') ∧ u'.touched = ((({ u with touched := l } : UserKern).strcpyVars
          (UserKern.nameOff r) varName).strcpyVars (UserKern.valueOff r) value).touched := by
      simp only [PtrCall.run, UserKern.sysDeclareVar, hcur, deref, pure_eq_ok, ok_bind, hc,
        if_neg hro']
      exact ⟨_, rfl, rfl⟩
    have hbelow : u'.Below ↔ ((∀ a ∈ l, a < utop) ∧ EndsBelow varName (bytesAt u.user varName)) ∧
        EndsBelow value (bytesAt u.user value) := by
      unfold UserKern.Below
      rw [ht]
      refine UserKern.below_strcpyVars.trans (and_congr_left fun _ => ?_)
      exact UserKern.below_strcpyVars
    rw [guarded_iff_below rfl hrun, hbelow, hsearch, and_assoc]
    refine and_congr_right fun _ => ⟨fun h r' hr _ => h, fun h => h r ?_ (not_not.mp hro)⟩
    rw [hc]

/-- When `sys_unset_var` touches no address of the kernel. -/
lemma unsetVar_guarded_iff (hcur : u.kern.curenv = some cur) (h0 : u.Below) (varName : Word) :
    (PtrCall.unsetVar varName).Guarded u ↔ PointersBelow u cur (.unsetVar varName) := by
  obtain ⟨l, hl, hiff⟩ := checkVar_below u cur varName false
  have hend : ∃ o u', PtrCall.run u (.unsetVar varName) = .ok (o, u') ∧ u'.touched = l := by
    rcases hc : u.checkVar cur varName false with ⟨o, u1⟩
    obtain rfl : u1 = { u with touched := l } := by rw [← hl, hc]
    simp only [PtrCall.run, UserKern.sysUnsetVar, hcur, deref, pure_eq_ok, ok_bind, hc]
    rcases o with _ | r
    · exact ⟨_, _, rfl, rfl⟩
    · simp only
      split_ifs
      · exact ⟨_, _, rfl, rfl⟩
      · exact ⟨_, _, rfl, rfl⟩
  obtain ⟨o, u', hrun, ht⟩ := hend
  rw [guarded_iff_below rfl hrun, UserKern.Below, ht]
  exact hiff.trans (and_iff_right h0)

/-- When `sys_get_var` touches no address of the kernel. -/
lemma getVar_guarded_iff (hcur : u.kern.curenv = some cur) (h0 : u.Below)
    (varName valueBuf : Word) : (PtrCall.getVar varName valueBuf).Guarded u ↔
      PointersBelow u cur (.getVar varName valueBuf) := by
  obtain ⟨l, hl, hiff⟩ := checkVar_below u cur varName false
  have hsearch : (∀ a ∈ l, a < utop) ↔ SearchesBelow u cur varName :=
    hiff.trans (and_iff_right h0)
  rcases hc : u.checkVar cur varName false with ⟨o, u1⟩
  obtain rfl : u1 = { u with touched := l } := by rw [← hl, hc]
  rcases o with _ | r
  · have hrun : PtrCall.run u (.getVar varName valueBuf) =
        .ok (some (-1), { u with touched := l }) := by
      simp only [PtrCall.run, UserKern.sysGetVar, hcur, deref, pure_eq_ok, ok_bind, hc]
    refine (guarded_iff_below rfl hrun).trans (hsearch.trans ?_)
    refine (and_iff_left fun r hr => ?_).symm
    rw [hc] at hr
    simp at hr
  · have hrun : PtrCall.run u (.getVar varName valueBuf) =
        .ok (some 0, ({ u with touched := l } : UserKern).strcpyOut valueBuf (u.value r)) := by
      simp only [PtrCall.run, UserKern.sysGetVar, hcur, deref, pure_eq_ok, ok_bind, hc]
      rfl
    rw [guarded_iff_below rfl hrun, UserKern.below_strcpyOut]
    refine and_congr hsearch ⟨fun h r' hr => ?_, fun h => h r (by rw [hc])⟩
    rw [hc, Option.some.injEq] at hr
    exact hr ▸ h

lemma getAllVar_guarded_iff (hcur : u.kern.curenv = some cur) (h0 : u.Below) (buf : Word) :
    (PtrCall.getAllVar buf).Guarded u ↔ PointersBelow u cur (.getAllVar buf) := by
  have hrun : PtrCall.run u (.getAllVar buf) = .ok
      (some (BitVec.ofNat 32
        (UserKern.getAllVarLoop cur buf (List.range UserKern.maxVarNum) 0 u).1),
      (UserKern.getAllVarLoop cur buf (List.range UserKern.maxVarNum) 0 u).2) := by
    simp only [PtrCall.run, UserKern.sysGetAllVar, hcur, deref, pure_eq_ok, ok_bind]
  rw [guarded_iff_below rfl hrun, List.range_eq_range', getAllVarLoop_below, and_iff_right h0]
  simp only [Nat.zero_le, forall_const, Nat.zero_add, Nat.sub_zero, PointersBelow,
    List.range_eq_range']

/-- **When a call is guarded.** In a call by the current environment the kernel touches only user
addresses below `UTOP` and refuses a buffer that is not, exactly if the strings that the calls on
paths and variables go through end below `UTOP`. -/
theorem guarded_iff (u : UserKern) (cur : EnvPtr) (hcur : u.kern.curenv = some cur)
    (h0 : u.touched = []) (c : PtrCall) : c.Guarded u ↔ PointersBelow u cur c := by
  have h0 : u.Below := fun a ha => absurd (h0 ▸ ha) List.not_mem_nil
  cases c with
  | printCons s num => exact iff_of_true (printCons_guarded s num h0) trivial
  | setTrapframe envid tf => exact iff_of_true (setTrapframe_guarded envid tf h0) trivial
  | writeDev va pa len => exact iff_of_true (writeDev_guarded va pa len h0) trivial
  | readDev va pa len => exact iff_of_true (readDev_guarded va pa len h0) trivial
  | getEnvPath envid envPath => exact getEnvPath_guarded_iff hcur h0 envid envPath
  | changeDir envPath changeParent => exact changeDir_guarded_iff hcur h0 envPath changeParent
  | declareVar varName value perm isGlobal =>
    exact declareVar_guarded_iff hcur h0 varName value perm isGlobal
  | unsetVar varName => exact unsetVar_guarded_iff hcur h0 varName
  | getVar varName valueBuf => exact getVar_guarded_iff hcur h0 varName valueBuf
  | getAllVar buf => exact getAllVar_guarded_iff hcur h0 buf

/-! ## A pointer into the kernel -/

/-- Two environments, cleared user memory and no variables. -/
def clearUser : UserKern where
  kern := pairKern
  user := fun _ => 0
  vars := fun _ => 0
  console := []
  dev := fun _ => 0
  touched := []

/-- The empty path of the first environment fits at any user address. -/
theorem guarded_iff_getEnvPath : (PtrCall.getEnvPath 0 0x400000#32).Guarded clearUser := by
  refine (guarded_iff clearUser 0 rfl rfl _).mpr fun e he => ?_
  obtain rfl : 0 = e := by simpa [envid2env, clearUser, pairKern] using he
  exact ⟨0, rfl, by decide⟩

/-- `sys_get_env_path` writes to a kernel address. -/
theorem getEnvPath_unguarded : ¬ ∀ (u : UserKern) (cur : EnvPtr), u.kern.curenv = some cur →
    u.touched = [] → ∀ c : PtrCall, c.Guarded u := by
  intro h
  have hg := h clearUser 0 rfl rfl (.getEnvPath 0 0x80000000#32)
  have hiff := getEnvPath_guarded_iff (u := clearUser) (show clearUser.kern.curenv = some 0 from rfl)
    (fun a ha => absurd ha List.not_mem_nil)
  rw [hiff] at hg
  obtain ⟨n, -, hn⟩ := hg 0 rfl
  simp at hn
  omega

end MosVolca
