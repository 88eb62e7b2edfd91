import MosVolca.Kern.UserPointers

/-!
# Device access

`sys_write_dev` and `sys_read_dev` copy between user memory and the registers of the devices after
they have checked both ranges. The sums in the checks are sums of 32-bit words. That of the user
range is checked for overflow; that of the device range is not.

## Main definitions

* `MosVolca.InUserRange`, `MosVolca.InDevice` — the ranges as sets of numbers.
* `MosVolca.DevAccess` — a call succeeds on these ranges only, and else does nothing.
* `MosVolca.WrapsIntoDevice` — the ranges that pass the checks all the same.

## Main results

* `MosVolca.isIllegalDevPa_iff` — the device ranges that are refused.
* `MosVolca.devAccess_iff` — when a call does what it should.
-/

namespace MosVolca

/-- The `len` bytes from `va` on lie in `[UTEMP, UTOP)`. -/
def InUserRange (va len : Word) : Prop :=
  utemp.toNat ≤ va.toNat ∧ va.toNat + len.toNat ≤ utop.toNat

/-- The first byte and the length of the windows of the console, the disk and the clock. -/
def deviceWindows : List (ℕ × ℕ) :=
  [(0x10000000, 0x20), (0x13000000, 0x4200), (0x15000000, 0x200)]

/-- The `len` bytes from `pa` on lie in one of the windows. -/
def InDevice (pa len : Word) : Prop :=
  ∃ x ∈ deviceWindows, x.1 ≤ pa.toNat ∧ pa.toNat + len.toNat ≤ x.1 + x.2

/-- The result `x` of a call: 0 if both ranges are good, and else `-E_INVAL` and no change. -/
structure DevAccess (u : UserKern) (va pa len : Word) (x : Word × UserKern) : Prop where
  ok : x.1 = 0 ↔ InUserRange va len ∧ InDevice pa len
  refused : ¬ (InUserRange va len ∧ InDevice pa len) → x = (-eInval, u)

/-- The end of the device range is past the last address by no more than the end of the last
window. -/
def WrapsIntoDevice (pa len : Word) : Prop :=
  2 ^ 32 < pa.toNat + len.toNat ∧ pa.toNat + len.toNat ≤ 2 ^ 32 + 0x15000200

instance (va len : Word) : Decidable (InUserRange va len) := inferInstanceAs (Decidable (_ ∧ _))

instance (pa len : Word) : Decidable (InDevice pa len) :=
  inferInstanceAs (Decidable (∃ x ∈ deviceWindows, _))

instance (pa len : Word) : Decidable (WrapsIntoDevice pa len) :=
  inferInstanceAs (Decidable (_ ∧ _))

variable {u : UserKern} {va pa len : Word}

/-! ## The checks -/

lemma len_pos (h : len ≠ 0) : 0 < len.toNat :=
  Nat.pos_of_ne_zero fun h0 => h (BitVec.eq_of_toNat_eq h0)

/-- The check of the user range is exact. -/
lemma isIllegalVaRange_iff (h : len ≠ 0) :
    isIllegalVaRange va len = false ↔ InUserRange va len := by
  have := len_pos h
  unfold isIllegalVaRange InUserRange
  simp only [h, ↓reduceIte, Bool.or_eq_false_iff, decide_eq_false_iff_not, BitVec.lt_def,
    BitVec.toNat_add, utemp_toNat, utop_toNat, gt_iff_lt]
  omega

/-- One comparison of the device check. -/
lemma devWindow_iff (h : len ≠ 0) (b n : Word) :
    (b ≤ pa ∧ pa + len - 1 < n) ↔ b.toNat ≤ pa.toNat ∧
      (pa.toNat + len.toNat ≤ n.toNat ∨
        2 ^ 32 < pa.toNat + len.toNat ∧ pa.toNat + len.toNat ≤ 2 ^ 32 + n.toNat) := by
  have := len_pos h
  have hn := n.isLt
  have hlast : (pa + len - 1).toNat = (pa.toNat + len.toNat - 1) % 2 ^ 32 := by
    have h1 : (1 : Word).toNat = 1 := rfl
    rw [BitVec.toNat_sub, BitVec.toNat_add, h1]
    omega
  rw [BitVec.le_def, BitVec.lt_def, hlast]
  omega

/-- **The device ranges that are accepted**, for a length that the check of the user range has let
pass: those in a window, and those whose end wraps into one. -/
lemma isIllegalDevPa_iff (h : len ≠ 0) (hu : InUserRange va len) :
    isIllegalDevPa pa len = false ↔ InDevice pa len ∨ WrapsIntoDevice pa len := by
  have hpa := pa.isLt
  have huser : len.toNat ≤ 0x7f400000 := by
    have := hu.2
    rw [utop_toNat] at this
    omega
  have hdev : InDevice pa len ↔
      (0x10000000 ≤ pa.toNat ∧ pa.toNat + len.toNat ≤ 0x10000020) ∨
      (0x13000000 ≤ pa.toNat ∧ pa.toNat + len.toNat ≤ 0x13004200) ∨
      (0x15000000 ≤ pa.toNat ∧ pa.toNat + len.toNat ≤ 0x15000200) := by
    simp [InDevice, deviceWindows]
  unfold isIllegalDevPa
  rw [hdev, WrapsIntoDevice, Bool.not_eq_eq_eq_not, Bool.not_false]
  simp only [Bool.or_eq_true, Bool.and_eq_true, decide_eq_true_eq, devWindow_iff h,
    BitVec.toNat_ofNat, Nat.reducePow, Nat.reduceMod]
  omega

/-! ## The calls -/

/-- Two checks, and then something that returns 0. -/
lemma devAccess_of_checks (h : len ≠ 0) {x : Word × UserKern}
    (hbad : isIllegalVaRange va len = true ∨ isIllegalDevPa pa len = true → x = (-eInval, u))
    (hok : isIllegalVaRange va len = false → isIllegalDevPa pa len = false → x.1 = 0) :
    DevAccess u va pa len x ↔ ¬ (InUserRange va len ∧ WrapsIntoDevice pa len) := by
  have herr : (-eInval : Word) ≠ 0 := by decide
  by_cases hu : InUserRange va len
  swap
  · -- the first check fails
    have hva : isIllegalVaRange va len = true :=
      Bool.of_not_eq_false fun hc => hu ((isIllegalVaRange_iff h).mp hc)
    have hx := hbad (Or.inl hva)
    refine iff_of_true ⟨iff_of_false ?_ fun hc => hu hc.1, fun _ => hx⟩ fun hc => hu hc.1
    rw [hx]
    exact herr
  have hdev : isIllegalDevPa pa len = false ↔ _ := isIllegalDevPa_iff h hu
  rcases hpa : isIllegalDevPa pa len with _ | _
  · have hx := hok ((isIllegalVaRange_iff h).mpr hu) hpa
    have hin := hdev.mp hpa
    constructor
    · rintro hacc ⟨-, hw⟩
      -- a range that wraps is in no window
      obtain ⟨-, y, hy, hlo, hhi⟩ := hacc.ok.mp hx
      have hend : y.1 + y.2 ≤ 2 ^ 32 := by
        simp only [deviceWindows, List.mem_cons, List.not_mem_nil, or_false] at hy
        rcases hy with rfl | rfl | rfl
        all_goals norm_num
      have := hw.1
      omega
    · intro hno
      have hgood : InDevice pa len := hin.resolve_right fun hw => hno ⟨hu, hw⟩
      exact ⟨iff_of_true hx ⟨hu, hgood⟩, fun hc => absurd ⟨hu, hgood⟩ hc⟩
  · have hx := hbad (Or.inr hpa)
    have hout : ¬ (InDevice pa len ∨ WrapsIntoDevice pa len) := fun hc => by
      rw [hdev.mpr hc] at hpa
      exact absurd hpa Bool.false_ne_true
    refine iff_of_true ⟨iff_of_false ?_ fun hc => hout (Or.inl hc.2), fun _ => hx⟩
      fun hc => hout (Or.inr hc.2)
    rw [hx]
    exact herr

/-- **Device access.** For every user range, device range and positive length, `sys_write_dev` and
`sys_read_dev` succeed exactly on the ranges in user space and in a window, and otherwise return
`-E_INVAL` and change nothing, if and only if the device range does not wrap into a window while
the user range is in user space. -/
theorem devAccess_iff (u : UserKern) (va pa : Word) (h : len ≠ 0) :
    DevAccess u va pa len (u.sysWriteDev va pa len) ∧
        DevAccess u va pa len (u.sysReadDev va pa len) ↔
      ¬ (InUserRange va len ∧ WrapsIntoDevice pa len) := by
  have hwrite : DevAccess u va pa len (u.sysWriteDev va pa len) ↔ _ := devAccess_of_checks h
    (fun hbad => by
      unfold UserKern.sysWriteDev
      rcases hbad with hbad | hbad
      · rw [if_pos hbad]
      · rw [if_pos hbad, ite_self])
    fun h1 h2 => by
      unfold UserKern.sysWriteDev
      rw [h1, h2]
      rfl
  have hread : DevAccess u va pa len (u.sysReadDev va pa len) ↔ _ := devAccess_of_checks h
    (fun hbad => by
      unfold UserKern.sysReadDev
      rcases hbad with hbad | hbad
      · rw [if_pos hbad]
      · rw [if_pos hbad, ite_self])
    fun h1 h2 => by
      unfold UserKern.sysReadDev
      rw [h1, h2]
      rfl
  rw [hwrite, hread, and_self_iff]

/-- The first word of the console. -/
theorem devAccess_iff_console :
    DevAccess clearUser 0x400000#32 0x10000000#32 4
      (clearUser.sysWriteDev 0x400000#32 0x10000000#32 4) ∧
      DevAccess clearUser 0x400000#32 0x10000000#32 4
        (clearUser.sysReadDev 0x400000#32 0x10000000#32 4) :=
  (devAccess_iff clearUser 0x400000#32 0x10000000#32 (by decide)).mpr (by decide)

/-- Two bytes from the last address on: the end wraps to 0, which is before the end of the
console. -/
theorem devAccess_wraps : ¬ ∀ (u : UserKern) (va pa len : Word), len ≠ 0 →
    DevAccess u va pa len (u.sysWriteDev va pa len) ∧
      DevAccess u va pa len (u.sysReadDev va pa len) := by
  intro h
  obtain ⟨hw, -⟩ := h clearUser 0x400000#32 0xffffffff#32 2 (by decide)
  exact absurd (hw.ok.mp (by decide)).2 (by decide)

end MosVolca
