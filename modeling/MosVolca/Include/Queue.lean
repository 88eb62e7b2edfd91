import MosVolca.Include.Error
import MosVolca.Library.TailQueue

/-!
# Lists

The `LIST` macros of `include/queue.h`, store by store. A list is a tail queue without the pointer
to its last slot: the links are the same, and only the head differs. The macros that look at the
neighbour first (`LIST_INSERT_HEAD`, `LIST_REMOVE`) are the ones of a tail queue that forgets its
last slot. `LIST_INSERT_AFTER` stores through the neighbour behind without looking.

## Main definitions

* `MosVolca.ListQ` — the head of a list and the links of all elements.
* `MosVolca.ListQ.insertAfter`, `MosVolca.ListQ.insertBefore`, `MosVolca.ListQ.insertHead`,
  `MosVolca.ListQ.remove` — the macros.
* `MosVolca.ListQ.Repr` — the list is well formed and has the given elements.

## Main results

* `MosVolca.ListQ.Repr.insertHead`, `MosVolca.ListQ.Repr.insertBefore`,
  `MosVolca.ListQ.Repr.remove` — these macros keep every list well formed.
* `MosVolca.ListQ.list_macros_iff` — with `LIST_INSERT_AFTER` they do exactly where the element is
  not the last one.
-/

namespace MosVolca

open TailQueue
open TailQueue.TailQ (endSlot endSlot_append linked_append LinkedTo)

/-- The head of a list, `lh_first`, and the links of the elements. -/
structure ListQ (α : Type) where
  first : Option α
  next : α → Option α
  prev : α → Slot α

namespace ListQ

variable {α : Type} [DecidableEq α]

/-- `*slot = v`. -/
def store (q : ListQ α) (v : Option α) : Slot α → Kernel (ListQ α)
  | .null => .error .nullAccess
  | .first => .ok { q with first := v }
  | .next e => .ok { q with next := Function.update q.next e v }

/-- `LIST_INSERT_AFTER`. -/
def insertAfter (q : ListQ α) (listelm elm : α) : Kernel (ListQ α) :=
  let q := { q with prev := Function.update q.prev elm (.next listelm) }
  let q := { q with next := Function.update q.next elm (q.next listelm) }
  let q := { q with next := Function.update q.next listelm (some elm) }
  match q.next elm with
  | none => .error .nullAccess
  | some n => .ok { q with prev := Function.update q.prev n (.next elm) }

/-- `LIST_INSERT_BEFORE`. -/
def insertBefore (q : ListQ α) (listelm elm : α) : Kernel (ListQ α) := do
  let q := { q with prev := Function.update q.prev elm (q.prev listelm) }
  let q := { q with next := Function.update q.next elm (some listelm) }
  let q ← q.store (some elm) (q.prev listelm)
  pure { q with prev := Function.update q.prev listelm (.next elm) }

/-- `LIST_INSERT_HEAD`. -/
def insertHead (q : ListQ α) (elm : α) : ListQ α :=
  let q := { q with next := Function.update q.next elm q.first }
  let q := match q.first with
    | some f => { q with prev := Function.update q.prev f (.next elm) }
    | none => q
  { q with first := some elm, prev := Function.update q.prev elm .first }

/-- `LIST_REMOVE`. -/
def remove (q : ListQ α) (elm : α) : Kernel (ListQ α) :=
  let q := match q.next elm with
    | some n => { q with prev := Function.update q.prev n (q.prev elm) }
    | none => q
  q.store (q.next elm) (q.prev elm)

/-! ## Well-formed lists -/

/-- The tail queue with the links of the list and the last slot `s`. -/
def queue (q : ListQ α) (s : Slot α) : TailQ α :=
  { first := q.first, last := s, next := q.next, prev := q.prev }

/-- The list is well formed and its elements are those of `l`, in order: from the head on, every
element points to the next one and the last one to nothing, and every back link is the address of
the pointer to its element. -/
structure Repr (q : ListQ α) (l : List α) : Prop where
  first : q.first = l.head?
  linked : (q.queue .null).Linked .first l none

/-- The tail queue without its last slot. -/
def forget (q : TailQ α) : ListQ α := { first := q.first, next := q.next, prev := q.prev }

variable {q : ListQ α} {t : TailQ α} {l l₁ l₂ : List α} {x e : α} {s : Slot α} {o : Option α}

omit [DecidableEq α] in
lemma linked_queue (h : (q.queue .null).Linked s l o) (s' : Slot α) :
    (q.queue s').Linked s l o :=
  h.congr (fun _ _ => rfl) fun _ _ => rfl

omit [DecidableEq α] in
/-- The back link of an element behind `x` is the address of a next-pointer. -/
lemma exists_prev_eq_next (h : t.Linked (.next x) l o) (he : e ∈ l) :
    ∃ z ∈ x :: l, t.prev e = .next z := by
  induction l generalizing x with
  | nil => simp at he
  | cons y l ih =>
    obtain ⟨h1, -, h3⟩ := h
    rcases List.mem_cons.mp he with rfl | he
    · exact ⟨x, List.mem_cons_self, h1⟩
    · obtain ⟨z, hz, hprev⟩ := ih h3 he
      exact ⟨z, List.mem_cons_of_mem x hz, hprev⟩

omit [DecidableEq α] in
/-- Linked elements are distinct: a repeated one would have two back links. -/
lemma nodup_of_linked (h : t.Linked s l o) (hs : ∀ z ∈ l, s ≠ .next z) : l.Nodup := by
  induction l generalizing s with
  | nil => exact List.nodup_nil
  | cons e l ih =>
    obtain ⟨h1, -, h3⟩ := h
    have he : e ∉ l := by
      intro hm
      obtain ⟨z, hz, hprev⟩ := exists_prev_eq_next h3 hm
      exact hs z hz (h1.symm.trans hprev)
    refine List.nodup_cons.mpr ⟨he, ih h3 fun z hz heq => he ?_⟩
    rw [Slot.next.inj heq]
    exact hz

omit [DecidableEq α] in
lemma Repr.nodup (h : q.Repr l) : l.Nodup :=
  nodup_of_linked h.linked fun _ _ => nofun

omit [DecidableEq α] in
/-- A well-formed list is a well-formed tail queue, with the slot behind its last element. -/
lemma Repr.queue (h : q.Repr l) : (q.queue (endSlot .first l)).Repr l :=
  ⟨h.nodup, h.first, linked_queue h.linked _, rfl⟩

omit [DecidableEq α] in
lemma repr_forget (h : t.Repr l) : (forget t).Repr l :=
  ⟨h.first, h.linked.congr (fun _ _ => rfl) fun _ _ => rfl⟩

lemma store_forget (t : TailQ α) (v : Option α) (s : Slot α) {t' : TailQ α}
    (h : t.store v s = some t') : (forget t).store v s = .ok (forget t') := by
  cases s with
  | null => simp [TailQ.store] at h
  | first =>
    obtain rfl := Option.some.inj h
    rfl
  | next e =>
    obtain rfl := Option.some.inj h
    rfl

/-- Storing through the slot behind `l₁` changes what those elements end in. -/
lemma exists_store (h : LinkedTo (q.queue .null) l₁ o) (hl : l₁.Nodup) (o' : Option α) :
    ∃ q', q.store o' (endSlot .first l₁) = .ok q' ∧ LinkedTo (q'.queue .null) l₁ o' ∧
      q'.prev = q.prev ∧ ∀ e ∉ l₁, q'.next e = q.next e := by
  obtain ⟨t, hs, ⟨hf, hl'⟩, -, hprev, hnext⟩ := h.store hl o'
  refine ⟨forget t, store_forget _ _ _ hs, ⟨hf, ?_⟩, hprev, hnext⟩
  exact hl'.congr (fun _ _ => rfl) fun _ _ => rfl

/-! ## The macros on well-formed lists -/

lemma insertHead_forget (t : TailQ α) (e : α) :
    (forget t).insertHead e = forget (t.insertHead e) := by
  unfold insertHead TailQ.insertHead forget
  cases t.first <;> rfl

/-- `LIST_INSERT_HEAD` on a well-formed list, the empty one included. -/
theorem Repr.insertHead (h : q.Repr l) (he : e ∉ l) : (q.insertHead e).Repr (e :: l) := by
  have hq : q = forget (q.queue (endSlot .first l)) := rfl
  rw [hq, insertHead_forget]
  exact repr_forget (h.queue.insertHead he)

/-- The list macro does to the forward links what the queue macro does. -/
lemma remove_forget (t : TailQ α) (e : α) {t' : TailQ α} (h : t.remove e = some t') :
    (forget t).remove e = .ok (forget t') := by
  unfold TailQ.remove at h
  unfold remove
  have hnext : (forget t).next e = t.next e := rfl
  cases hn : t.next e with
  | none =>
    simp only [hn] at h
    simp only [hnext, hn]
    exact store_forget { t with last := t.prev e } _ _ h
  | some n =>
    simp only [hn] at h
    simp only [hnext, hn]
    exact store_forget { t with prev := Function.update t.prev n (t.prev e) } _ _ h

/-- `LIST_REMOVE` of an element of a well-formed list. -/
theorem Repr.remove (h : q.Repr (l₁ ++ x :: l₂)) :
    ∃ q', q.remove x = .ok q' ∧ q'.Repr (l₁ ++ l₂) := by
  obtain ⟨t, hs, ht⟩ := h.queue.remove (List.mem_append_right l₁ List.mem_cons_self)
  have hx : x ∉ l₁ := fun hm => (List.nodup_append.mp h.nodup).2.2 x hm x List.mem_cons_self rfl
  rw [List.erase_append_right _ hx, List.erase_cons_head] at ht
  exact ⟨forget t, remove_forget _ _ hs, repr_forget ht⟩

/-- `LIST_INSERT_BEFORE` at an element of a well-formed list. -/
theorem Repr.insertBefore (h : q.Repr (l₁ ++ x :: l₂)) (he : e ∉ l₁ ++ x :: l₂) :
    ∃ q', q.insertBefore x e = .ok q' ∧ q'.Repr (l₁ ++ e :: x :: l₂) := by
  obtain ⟨hn₁, hn₂, hdisj⟩ := List.nodup_append.mp h.nodup
  have hx₁ : ∀ y ∈ l₁, y ≠ x := fun y hy => hdisj y hy x List.mem_cons_self
  have hx₂ : ∀ y ∈ l₂, y ≠ x := fun y hy => ne_of_mem_of_not_mem hy (List.nodup_cons.mp hn₂).1
  have hne : ∀ y ∈ l₁ ++ x :: l₂, y ≠ e := fun y hy => ne_of_mem_of_not_mem hy he
  have hxe : x ≠ e := hne x (List.mem_append_right l₁ List.mem_cons_self)
  have he₁ : ∀ y ∈ l₁, y ≠ e := fun y hy => hne y (List.mem_append_left _ hy)
  have he₂ : ∀ y ∈ l₂, y ≠ e := fun y hy =>
    hne y (List.mem_append_right l₁ (List.mem_cons_of_mem x hy))
  obtain ⟨hl₁, hprev, hnext, hl₂⟩ := linked_append.mp h.linked
  -- the links of the new element are written; what points to `x` does not change by that
  let q₁ : ListQ α := { q with
    prev := Function.update q.prev e (q.prev x), next := Function.update q.next e (some x) }
  have hlink : LinkedTo (q₁.queue .null) l₁ (some x) := by
    refine ⟨?_, hl₁.congr (fun y hy => ?_) fun y hy => ?_⟩
    · have hf := h.first
      rwa [List.head?_append, List.head?_cons] at hf
    · exact Function.update_of_ne (he₁ y hy) _ _
    · exact Function.update_of_ne (he₁ y hy) _ _
  obtain ⟨q₂, hs, ⟨hf, hl⟩, hprev', hnext'⟩ := exists_store hlink hn₁ (some e)
  have hslot : q₁.prev x = endSlot .first l₁ := by
    rw [← hprev]
    exact Function.update_of_ne hxe _ _
  have hpe : q₂.prev e = endSlot .first l₁ := by
    rw [hprev', ← hprev]
    exact Function.update_self e _ _
  refine ⟨{ q₂ with prev := Function.update q₂.prev x (.next e) }, ?_, ?_,
    linked_append.mpr ⟨hl.congr (fun _ _ => rfl) fun y hy => ?_, ?_, ?_, ?_, ?_,
      hl₂.congr (fun y hy => ?_) fun y hy => ?_⟩⟩
  · unfold ListQ.insertBefore
    rw [← hslot] at hs
    simp only [q₁] at hs
    simp only [hs, ok_bind, pure_eq_ok]
  · rw [List.head?_append]
    exact hf
  · exact Function.update_of_ne (hx₁ y hy) _ _
  · exact (Function.update_of_ne hxe.symm _ _).trans hpe
  · exact (hnext' e fun hm => he₁ e hm rfl).trans (Function.update_self e _ _)
  · exact Function.update_self x _ _
  · refine (hnext' x fun hm => hx₁ x hm rfl).trans ?_
    exact (Function.update_of_ne hxe _ _).trans hnext
  · have hy₁ : y ∉ l₁ := fun hm => hdisj y hm y (List.mem_cons_of_mem x hy) rfl
    exact (hnext' y hy₁).trans (Function.update_of_ne (he₂ y hy) _ _)
  · have hpy : q₂.prev y = q.prev y := by
      rw [hprev']
      exact Function.update_of_ne (he₂ y hy) _ _
    exact (Function.update_of_ne (hx₂ y hy) _ _).trans hpy

/-- `LIST_INSERT_AFTER` at an element that is not the last one. -/
theorem Repr.insertAfter {n : α} (h : q.Repr (l₁ ++ x :: n :: l₂)) (he : e ∉ l₁ ++ x :: n :: l₂) :
    ∃ q', q.insertAfter x e = .ok q' ∧ q'.Repr (l₁ ++ x :: e :: n :: l₂) := by
  obtain ⟨hn₁, hn₂, hdisj⟩ := List.nodup_append.mp h.nodup
  have hne : ∀ y ∈ l₁ ++ x :: n :: l₂, y ≠ e := fun y hy => ne_of_mem_of_not_mem hy he
  have hx₁ : ∀ y ∈ l₁, y ≠ x := fun y hy => hdisj y hy x List.mem_cons_self
  have hnx : ∀ y ∈ n :: l₂, y ≠ x := fun y hy =>
    ne_of_mem_of_not_mem hy (List.nodup_cons.mp hn₂).1
  have hn : ∀ y ∈ l₂, y ≠ n := fun y hy =>
    ne_of_mem_of_not_mem hy (List.nodup_cons.mp (List.nodup_cons.mp hn₂).2).1
  have hn₁' : ∀ y ∈ l₁, y ≠ n := fun y hy =>
    hdisj y hy n (List.mem_cons_of_mem x List.mem_cons_self)
  simp only [List.mem_append, List.mem_cons] at hne hnx
  obtain ⟨hl₁, hprev, hnext, -, hnn, hl₂⟩ := linked_append.mp h.linked
  have hxn : q.next x = some n := hnext
  have hne₁ : n ≠ e := hne n (by simp)
  have hxe : x ≠ e := hne x (by simp)
  have hnext' : Function.update (Function.update q.next e (some n)) x (some e) e = some n := by
    rw [Function.update_of_ne hxe.symm, Function.update_self]
  refine ⟨⟨q.first, Function.update (Function.update q.next e (some n)) x (some e),
    Function.update (Function.update q.prev e (.next x)) n (.next e)⟩, ?_, ?_,
    linked_append.mpr ⟨hl₁.congr (fun y hy => ?_) fun y hy => ?_, ?_, ?_, ?_, ?_, ?_, ?_,
      hl₂.congr (fun y hy => ?_) fun y hy => ?_⟩⟩
  · simp only [ListQ.insertAfter, hxn, hnext']
  · have hf := h.first
    rwa [List.head?_append] at hf ⊢
  all_goals simp only [ListQ.queue]
  · rw [Function.update_of_ne (hx₁ y hy), Function.update_of_ne (hne y (by simp [hy]))]
  · rw [Function.update_of_ne (hn₁' y hy), Function.update_of_ne (hne y (by simp [hy]))]
  · rw [Function.update_of_ne (hnx n (by simp)).symm, Function.update_of_ne hxe]
    exact hprev
  · exact Function.update_self x _ _
  · rw [Function.update_of_ne hne₁.symm, Function.update_self]
  · exact hnext'
  · exact Function.update_self n _ _
  · rw [Function.update_of_ne (hnx n (by simp)), Function.update_of_ne hne₁]
    exact hnn
  · rw [Function.update_of_ne (hnx y (by simp [hy])), Function.update_of_ne (hne y (by simp [hy]))]
  · rw [Function.update_of_ne (hn y hy), Function.update_of_ne (hne y (by simp [hy]))]

/-- `LIST_INSERT_AFTER` at the last element stores through the null pointer behind it. -/
lemma Repr.insertAfter_last (h : q.Repr (l₁ ++ [x])) (he : e ∉ l₁ ++ [x]) :
    q.insertAfter x e = .error .nullAccess := by
  have hxn : q.next x = none := (linked_append.mp h.linked).2.2.1
  have hxe : e ≠ x := fun hex => he (List.mem_append_right l₁ (List.mem_singleton.mpr hex))
  have hnext : Function.update (Function.update q.next e none) x (some e) e = none := by
    rw [Function.update_of_ne hxe, Function.update_self]
  simp only [ListQ.insertAfter, hxn, hnext]

/-- The macros at an element `x` of a well-formed list, with an element `e` that is not in it:
the head insertion works on every list, and the three macros at `x` insert `e` behind and before
`x` and remove `x` exactly where `x` is not the last element. -/
theorem list_macros_iff (h : q.Repr l) (he : e ∉ l) :
    (q.insertHead e).Repr (e :: l) ∧ ∀ l₁ x l₂, l = l₁ ++ x :: l₂ →
      (((∃ q', q.insertAfter x e = .ok q' ∧ q'.Repr (l₁ ++ x :: e :: l₂)) ∧
          (∃ q', q.insertBefore x e = .ok q' ∧ q'.Repr (l₁ ++ e :: x :: l₂)) ∧
          ∃ q', q.remove x = .ok q' ∧ q'.Repr (l₁ ++ l₂)) ↔
        l₂ ≠ []) := by
  refine ⟨h.insertHead he, ?_⟩
  rintro l₁ x l₂ rfl
  constructor
  · rintro ⟨⟨q', hq, -⟩, -⟩ rfl
    rw [h.insertAfter_last he] at hq
    cases hq
  · intro hl₂
    obtain ⟨n, r, rfl⟩ := List.exists_cons_of_ne_nil hl₂
    exact ⟨h.insertAfter he, h.insertBefore he, h.remove⟩

/-- The list of the single element 0, among the numbers. -/
def single : ListQ ℕ := { first := some 0, next := fun _ => none, prev := fun _ => .first }

lemma repr_single : single.Repr [0] := ⟨rfl, rfl, rfl, trivial⟩

/-- The element behind which nothing follows: the insertion of a second element fails, though the
same insertion before it works. -/
theorem single_insertAfter :
    ¬ ∀ (q : ListQ ℕ) (l₁ : List ℕ) (x : ℕ) (l₂ : List ℕ) (e : ℕ), q.Repr (l₁ ++ x :: l₂) →
      e ∉ l₁ ++ x :: l₂ →
        ∃ q', q.insertAfter x e = .ok q' ∧ q'.Repr (l₁ ++ x :: e :: l₂) := by
  intro h
  obtain ⟨q', hq, -⟩ := h single [] 0 [] 1 repr_single (by decide)
  cases hq

/-- The list 0, 1 and the new element 2. -/
theorem pair_macros :
    let q : ListQ ℕ := {
      first := some 0
      next := fun e => if e = 0 then some 1 else none
      prev := fun e => if e = 0 then .first else .next 0 }
    q.Repr [0, 1] ∧ 2 ∉ [0, 1] ∧ (q.insertHead 2).Repr [2, 0, 1] ∧
      (∃ q', q.insertAfter 0 2 = .ok q' ∧ q'.Repr [0, 2, 1]) ∧
      (∃ q', q.insertBefore 0 2 = .ok q' ∧ q'.Repr [2, 0, 1]) ∧
      ∃ q', q.remove 0 = .ok q' ∧ q'.Repr [1] := by
  intro q
  have hq : q.Repr [0, 1] := ⟨rfl, rfl, rfl, rfl, rfl, trivial⟩
  obtain ⟨hhead, h⟩ := list_macros_iff hq (e := 2) (by decide)
  exact ⟨hq, by decide, hhead, (h [] 0 [1] rfl).mpr (by decide)⟩

end ListQ

end MosVolca
