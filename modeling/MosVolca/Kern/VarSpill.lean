import MosVolca.Kern.VarLaws

/-!
# Declarations that spill over

`sys_declare_var` copies the name and the value of the user with `strcpy` into the fields of an
entry, and nothing compares their lengths with the sizes of the fields. A name of more than 127
bytes runs into the value of the entry; a value of more than 1023 bytes runs into the words behind
it and from there into the next entry.

## Main definitions

* `MosVolca.DeclaredInSlot` — a declaration that stays in its entry.
* `MosVolca.Confined` — a declaration stays in one entry or changes nothing.

## Main results

* `MosVolca.declareVar_confined_iff` — when it does.
-/

namespace MosVolca

open CString ByteLoop

variable {u u' : UserKern} {c : EnvPtr} {va value perm isGlobal : Word} {r n : ℕ}
  {s : ℕ → BitVec 8}

/-- `strcpy` writes at most `n` bytes exactly if the null byte is among the first `n`. -/
lemma strExtent_le_iff (hn : n < 2 ^ 32) : strExtent s ≤ n ↔ ∃ i < n, s i = 0 := by
  constructor
  · intro hle
    by_contra hno
    push Not at hno
    by_cases hex : ∃ i < 2 ^ 32, s i = 0
    · obtain ⟨m, hm, hlen⟩ := exists_strLen hex
      have hext : strExtent s = m + 1 := hlen.extent_eq hm
      exact hno m (by omega) hlen.1
    · push Not at hex
      have hext : strExtent s = 0 + 2 ^ 32 := by
        refine extentFrom_eq_add fun j _ hj => ?_
        simpa using hex j (by omega)
      omega
  · intro hex
    obtain ⟨m, hm, hlen⟩ := exists_strLen hex
    have hext : strExtent s = m + 1 := hlen.extent_eq (by omega)
    omega

/-- **A declaration in entry `r`**: the entry is the one that `checkVar` has chosen, both strings end
within their fields and are stored there with their null bytes, and nothing changes outside the
entry. -/
structure DeclaredInSlot (u u' : UserKern) (c : EnvPtr) (va value perm isGlobal : Word) (r : ℕ) :
    Prop where
  slot : (u.checkVar c va true).1 = some r
  lt : r < UserKern.maxVarNum
  name_le : strExtent (bytesAt u.user va) ≤ varNameLen
  value_le : strExtent (bytesAt u.user value) ≤ varValueLen
  name : ∀ j < strExtent (bytesAt u.user va), u'.name r j = bytesAt u.user va j
  value : ∀ j < strExtent (bytesAt u.user value), u'.value r j = bytesAt u.user value j
  perm : u'.perm r = perm
  shellId : u'.shellId r = VarTable.owner (u.kern.envs c).shellId isGlobal
  other : ∀ a, (a < r * UserKern.sizeofVar ∨ r * UserKern.sizeofVar + UserKern.sizeofVar ≤ a) →
    u'.vars a = u.vars a

/-- **No variable spills into another**: a declaration that returns 0 stays in one entry, and one
that does not changes nothing. -/
def Confined (u : UserKern) (c : EnvPtr) (va value perm isGlobal : Word) : Prop :=
  ∃ res u', u.sysDeclareVar va value perm isGlobal = .ok (res, u') ∧
    (res = 0 → ∃ r, DeclaredInSlot u u' c va value perm isGlobal r) ∧
    (res ≠ 0 → u'.vars = u.vars)

/-- Strings that end within their fields stay there. -/
lemma declaredInSlot (hslot : (u.checkVar c va true).1 = some r) (hname : Fits u va varNameLen)
    (hvalue : Fits u value varValueLen)
    (hvars : u'.vars = writeEntry u.vars r (bytesAt u.user va) (bytesAt u.user value) perm
      (VarTable.owner (u.kern.envs c).shellId isGlobal)) :
    DeclaredInSlot u u' c va value perm isGlobal r := by
  obtain ⟨m, hm, hs⟩ := exists_strLen hname
  obtain ⟨k, hk, hv⟩ := exists_strLen hvalue
  have hnlen : varNameLen = 128 := rfl
  have hvlen : varValueLen = 1024 := rfl
  have hsx : strExtent (bytesAt u.user va) = m + 1 := hs.extent_eq (by omega)
  have hvx : strExtent (bytesAt u.user value) = k + 1 := hv.extent_eq (by omega)
  obtain ⟨h1, h2, h3, h4, h5⟩ := writeEntry_bytes hs hm hv hk perm
    (VarTable.owner (u.kern.envs c).shellId isGlobal) u.vars r
  rw [← hvars] at h1 h2 h3 h4 h5
  refine ⟨hslot, checkVar_lt hslot, by omega, by omega, fun j hj => ?_, fun j hj => ?_, ?_, ?_, h5⟩
  · exact h1 j (by omega)
  · exact h2 j (by omega)
  · exact wordOf_eq h3
  · exact wordOf_eq h4

/-- **When a declaration stays in one entry**: exactly if `checkVar` finds no entry, or one that is
read-only, or both strings end within their fields. -/
theorem declareVar_confined_iff (u : UserKern) (c : EnvPtr) (va value perm isGlobal : Word)
    (hcur : u.kern.curenv = some c) :
    Confined u c va value perm isGlobal ↔
      (u.checkVar c va true).1 = none ∨
      (∃ r, (u.checkVar c va true).1 = some r ∧ u.perm r &&& UserKern.varRdonly ≠ 0) ∨
      Fits u va varNameLen ∧ Fits u value varValueLen := by
  constructor
  · rintro ⟨res, u', hr, hslot, -⟩
    rcases sysDeclareVar_cases u va value perm isGlobal hcur with ⟨hn, -⟩ | ⟨r, hs, hro, -⟩ |
      ⟨r, u₁, -, -, hd, -⟩
    · exact .inl hn
    · exact .inr (.inl ⟨r, hs, hro⟩)
    · rw [hr, Except.ok.injEq, Prod.mk.injEq] at hd
      obtain ⟨r, hin⟩ := hslot hd.1
      exact .inr (.inr ⟨(strExtent_le_iff (by decide)).mp hin.name_le,
        (strExtent_le_iff (by decide)).mp hin.value_le⟩)
  · intro hcond
    rcases sysDeclareVar_cases u va value perm isGlobal hcur with ⟨-, l, hd⟩ | ⟨r, -, -, l, hd⟩ |
      ⟨r, u', hs, hro, hd, hvars⟩
    · exact ⟨-1, _, hd, fun h0 => absurd h0 (by decide), fun _ => rfl⟩
    · exact ⟨-2, _, hd, fun h0 => absurd h0 (by decide), fun _ => rfl⟩
    · -- an entry that can be written was found, so the strings fit
      have hfits : Fits u va varNameLen ∧ Fits u value varValueLen := by
        rcases hcond with hn | ⟨r', hs', hro'⟩ | hfits
        · rw [hs] at hn
          cases hn
        · rw [hs, Option.some.injEq] at hs'
          exact absurd (hs' ▸ hro) hro'
        · exact hfits
      exact ⟨0, u', hd, fun _ => ⟨r, declaredInSlot hs hfits.1 hfits.2 hvars⟩,
        fun h0 => absurd rfl h0⟩

/-- Shell 1 declares "x" in an empty table. -/
theorem declareVar_confined_noVars : Confined (shellUser noVars 1) 0 0x400000 0x400010 0 0 :=
  (declareVar_confined_iff (shellUser noVars 1) 0 0x400000 0x400010 0 0 rfl).mpr
    (.inr (.inr ⟨shellUser_fits _ _ _ (by decide) (by decide),
      shellUser_fits _ _ _ (by decide) (by decide)⟩))

/-- A user memory with the name "x" and a value of 1041 bytes at 0x500000. -/
def longMem (a : Word) : BitVec 8 :=
  if (a - 0x500000).toNat < 1041 then 0x61 else shellMem a

def longUser : UserKern := { shellUser noVars 1 with user := longMem }

lemma longMem_value : StrLen (bytesAt longMem 0x500000) 1041 := by
  have hsub : ∀ i < 2 ^ 32, ((0x500000 : Word) + BitVec.ofNat 32 i - 0x500000).toNat = i := by
    intro i hi
    rw [add_sub_cancel_left, BitVec.toNat_ofNat, Nat.mod_eq_of_lt hi]
  refine ⟨by decide, fun i hi => ?_⟩
  have hbyte : bytesAt longMem 0x500000 i = 0x61 := by
    rw [bytesAt, longMem, hsub i (by omega), if_pos hi]
  rw [hbyte]
  decide

/-- The name goes to the first entry. -/
lemma longUser_slot : (longUser.checkVar 0 0x400000 true).1 = some 0 := by
  have hwf : WellFormedVars longUser.vars := wellFormed_noVars
  have hT : varTable longUser.vars = fun _ => ⟨[], [], 0, 0⟩ := varTable_noVars
  have hslot : ∀ a name, VarTable.slot (fun _ => ⟨[], [], 0, 0⟩) a name = some 0 := by
    intro a name
    refine VarTable.slot_of_free ?_ (by decide) rfl fun i hi => absurd hi (Nat.not_lt_zero i)
    rw [VarTable.find_eq_none_iff]
    exact fun i _ => rfl
  obtain ⟨l, hl⟩ := checkVar_table hwf 0 0x400000 true
  rw [hl, if_pos rfl, hT, hslot]

/-- A byte of the value is stored as the first byte of the next name. -/
lemma longUser_spills (perm shell : Word) : writeEntry noVars 0 (bytesAt longMem 0x400000)
    (bytesAt longMem 0x500000) perm shell (UserKern.nameOff 1) = 0x61 := by
  have hext : strExtent (bytesAt longMem 0x500000) = 1042 := longMem_value.extent_eq (by decide)
  have hoff : UserKern.nameOff 1 = UserKern.valueOff 0 + 1032 := rfl
  unfold writeEntry
  rw [putBytes_of_disjoint (by decide), putBytes_of_disjoint (by decide), hext, hoff,
    putBytes_add (by decide)]
  decide

/-- **A variable that spills into the next one**: the value runs from the first entry into the name
of the second one. -/
theorem not_declareVar_confined : ¬ ∀ (u : UserKern) (c : EnvPtr) (va value perm isGlobal : Word),
    u.kern.curenv = some c → (∃ m, StrLen (bytesAt u.user va) m) →
    (∃ m, StrLen (bytesAt u.user value) m) → Confined u c va value perm isGlobal := by
  intro hall
  have hcur : longUser.kern.curenv = some 0 := rfl
  have hname : StrLen (bytesAt longMem 0x400000) 1 :=
    ⟨by decide, fun i hi => by rw [Nat.lt_one_iff.mp hi]; decide⟩
  obtain ⟨res, u', hr, hslot, -⟩ := hall longUser 0 0x400000 0x500000 0 0 hcur ⟨1, hname⟩
    ⟨1041, longMem_value⟩
  rcases sysDeclareVar_cases longUser 0x400000 0x500000 0 0 hcur with ⟨hn, -⟩ | ⟨r, hs, hro, -⟩ |
    ⟨r, u₁, hs, -, hd, hvars⟩
  · rw [longUser_slot] at hn
    cases hn
  · obtain rfl : 0 = r := Option.some.inj (longUser_slot.symm.trans hs)
    exact absurd hro (by decide)
  · obtain rfl : 0 = r := Option.some.inj (longUser_slot.symm.trans hs)
    rw [hr, Except.ok.injEq, Prod.mk.injEq] at hd
    obtain ⟨r, hin⟩ := hslot hd.1
    obtain rfl : 0 = r := Option.some.inj (longUser_slot.symm.trans hin.slot)
    -- the first byte of the next name should be 0 still
    have hkeep := hin.other (UserKern.nameOff 1) (.inr (by decide))
    rw [hd.2, hvars] at hkeep
    have hspill := longUser_spills 0 (VarTable.owner (longUser.kern.envs 0).shellId 0)
    exact absurd (hspill.symm.trans hkeep) (by decide)

end MosVolca
