import Mathlib.Data.List.Nodup
import Mathlib.Data.List.Basic
import Mathlib.Logic.Function.Basic

/-!
# Intrusive tail queues

The tail queues of BSD's `queue.h`: every element has a pointer to the next element and a pointer
to the *slot* that points to it (the head of the queue, or the next-pointer of another element).
The operations are the macros, store by store, on any pointers; they have no result where they
store through a null slot. A well-formed queue represents a list of elements, and the operations act on that list.

## Main definitions

* `TailQueue.TailQ` — the head of a queue and the links of all elements.
* `TailQueue.TailQ.insertHead`, `TailQueue.TailQ.insertTail`, `TailQueue.TailQ.remove` — the macros.
* `TailQueue.TailQ.Repr` — the queue is well formed and its elements are those of a list.

## Main results

* `TailQueue.TailQ.Repr.insertHead`, `TailQueue.TailQ.Repr.insertTail`,
  `TailQueue.TailQ.Repr.remove` — the macros on a well-formed queue.
-/

namespace TailQueue

/-- A pointer to a place that holds an element pointer. -/
inductive Slot (α : Type*)
  | null
  /-- `&head->tqh_first`. -/
  | first
  /-- `&e->field.tqe_next`. -/
  | next (e : α)
  deriving DecidableEq

/-- The head of a queue, and the links of the elements: `next` and `prev` are those of all elements, in
the queue or not. -/
structure TailQ (α : Type*) where
  first : Option α
  last : Slot α
  next : α → Option α
  prev : α → Slot α

variable {α : Type*} [DecidableEq α]

namespace TailQ

/-- `TAILQ_INIT`. -/
def init (q : TailQ α) : TailQ α := { q with first := none, last := .first }

/-- `*slot = v`. What a store through a null slot does depends on what is at address 0: it is left
open. -/
def store (q : TailQ α) (v : Option α) : Slot α → Option (TailQ α)
  | .null => none
  | .first => some { q with first := v }
  | .next e => some { q with next := Function.update q.next e v }

/-- `TAILQ_INSERT_HEAD`. -/
def insertHead (q : TailQ α) (e : α) : TailQ α :=
  let q := { q with next := Function.update q.next e q.first }
  let q := match q.first with
    | some f => { q with prev := Function.update q.prev f (.next e) }
    | none => { q with last := .next e }
  { q with first := some e, prev := Function.update q.prev e .first }

/-- `TAILQ_INSERT_TAIL`. -/
def insertTail (q : TailQ α) (e : α) : Option (TailQ α) := do
  let q := { q with
    next := Function.update q.next e none
    prev := Function.update q.prev e q.last }
  let q ← q.store (some e) q.last
  pure { q with last := .next e }

/-- `TAILQ_REMOVE`. -/
def remove (q : TailQ α) (e : α) : Option (TailQ α) :=
  let q := match q.next e with
    | some n => { q with prev := Function.update q.prev n (q.prev e) }
    | none => { q with last := q.prev e }
  q.store (q.next e) (q.prev e)

/-! ## Well-formed queues -/

omit [DecidableEq α] in
/-- The slot behind the elements of a list that starts at the slot `s`. -/
def endSlot (s : Slot α) : List α → Slot α
  | [] => s
  | e :: l => endSlot (.next e) l

/-- The elements of the list are linked one after the other, from the slot `s` on; the last one
points to `o`. -/
def Linked (q : TailQ α) : Slot α → List α → Option α → Prop
  | _, [], _ => True
  | s, e :: l, o => q.prev e = s ∧ q.next e = l.head?.or o ∧ Linked q (.next e) l o

/-- The queue is well formed and its elements are those of `l`, in order. -/
structure Repr (q : TailQ α) (l : List α) : Prop where
  nodup : l.Nodup
  first : q.first = l.head?
  linked : q.Linked .first l none
  last : q.last = endSlot .first l

variable {q q' : TailQ α} {s : Slot α} {l l₁ l₂ : List α} {o o' : Option α} {e : α}

omit [DecidableEq α]

lemma endSlot_append (s : Slot α) (l₁ l₂ : List α) :
    endSlot s (l₁ ++ l₂) = endSlot (endSlot s l₁) l₂ := by
  induction l₁ generalizing s with
  | nil => rfl
  | cons e l₁ ih => exact ih (.next e)

/-- Links of a concatenation: both halves and the seam. -/
lemma linked_append : q.Linked s (l₁ ++ l₂) o ↔
    q.Linked s l₁ (l₂.head?.or o) ∧ q.Linked (endSlot s l₁) l₂ o := by
  induction l₁ generalizing s with
  | nil => simp [Linked, endSlot]
  | cons e l₁ ih =>
    have hhead : (l₁ ++ l₂).head?.or o = l₁.head?.or (l₂.head?.or o) := by
      cases l₁ <;> simp
    simp only [List.cons_append, Linked, endSlot, ih, hhead, and_assoc]

/-- Links depend on the pointers of the elements only. -/
lemma Linked.congr (h : q.Linked s l o) (hn : ∀ e ∈ l, q'.next e = q.next e)
    (hp : ∀ e ∈ l, q'.prev e = q.prev e) : q'.Linked s l o := by
  induction l generalizing s with
  | nil => trivial
  | cons e l ih =>
    obtain ⟨h1, h2, h3⟩ := h
    refine ⟨?_, ?_, ih h3 (fun x hx => hn x (List.mem_cons_of_mem _ hx))
      fun x hx => hp x (List.mem_cons_of_mem _ hx)⟩
    · rw [hp e List.mem_cons_self, h1]
    · rw [hn e List.mem_cons_self, h2]

/-- The links of the list, and the head of the queue, all but what the last slot points to. -/
def LinkedTo (q : TailQ α) (l : List α) (o : Option α) : Prop :=
  q.first = l.head?.or o ∧ q.Linked .first l o

variable [DecidableEq α]

/-- Storing through the slot behind a list changes what the list ends in. -/
lemma LinkedTo.store (h : q.LinkedTo l o) (hl : l.Nodup) (o' : Option α) :
    ∃ q', q.store o' (endSlot .first l) = some q' ∧ q'.LinkedTo l o' ∧ q'.last = q.last ∧
      q'.prev = q.prev ∧ ∀ e ∉ l, q'.next e = q.next e := by
  rcases List.eq_nil_or_concat' l with rfl | ⟨l, x, rfl⟩
  · exact ⟨{ q with first := o' }, rfl, ⟨rfl, trivial⟩, rfl, rfl, fun _ _ => rfl⟩
  · obtain ⟨hf, hlink⟩ := h
    obtain ⟨h1, h2, h3, -⟩ := linked_append.mp hlink
    obtain ⟨-, -, hx⟩ := List.nodup_append.mp hl
    have hx : x ∉ l := fun hm => hx x hm x List.mem_cons_self rfl
    refine ⟨{ q with next := Function.update q.next x o' }, ?_,
      ⟨?_, linked_append.mpr ⟨?_, h2, ?_, trivial⟩⟩, rfl, rfl, fun e he => ?_⟩
    · rw [endSlot_append]
      rfl
    · rw [List.head?_append] at hf ⊢
      cases l <;> simpa using hf
    · refine h1.congr (fun e he => Function.update_of_ne ?_ _ _) fun _ _ => rfl
      rintro rfl
      exact hx he
    · simp
    · refine Function.update_of_ne ?_ _ _
      rintro rfl
      exact he (by simp)

/-- `TAILQ_INSERT_TAIL` on a well-formed queue. -/
theorem Repr.insertTail (h : q.Repr l) (he : e ∉ l) :
    ∃ q', q.insertTail e = some q' ∧ q'.Repr (l ++ [e]) := by
  have hne : ∀ x ∈ l, x ≠ e := by
    rintro x hx rfl
    exact he hx
  have hlink : LinkedTo { q with
      next := Function.update q.next e none, prev := Function.update q.prev e q.last } l none := by
    refine ⟨by simpa using h.first, h.linked.congr (fun x hx => ?_) fun x hx => ?_⟩
    · exact Function.update_of_ne (hne x hx) _ _
    · exact Function.update_of_ne (hne x hx) _ _
  obtain ⟨q', hs, ⟨hf, hl⟩, -, hprev, hnext⟩ := hlink.store h.nodup (some e)
  rw [← h.last] at hs
  refine ⟨{ q' with last := .next e }, ?_, ?_, ?_, ?_, ?_⟩
  · unfold TailQ.insertTail
    simp only [hs]
    rfl
  · rw [List.nodup_append]
    refine ⟨h.nodup, List.nodup_singleton e, fun x hx y hy => ?_⟩
    rw [List.mem_singleton.mp hy]
    exact hne x hx
  · rw [List.head?_append]
    exact hf
  · refine linked_append.mpr ⟨hl.congr (fun _ _ => rfl) fun _ _ => rfl, ?_, ?_, trivial⟩
    · rw [hprev, ← h.last]
      simp
    · rw [hnext e he]
      simp
  · rw [endSlot_append]
    rfl

/-- `TAILQ_INSERT_HEAD` on a well-formed queue. -/
theorem Repr.insertHead (h : q.Repr l) (he : e ∉ l) : (q.insertHead e).Repr (e :: l) := by
  have hnodup : (e :: l).Nodup := List.nodup_cons.mpr ⟨he, h.nodup⟩
  have hne : ∀ x ∈ l, x ≠ e := by
    rintro x hx rfl
    exact he hx
  have hfirst := h.first
  rcases l with _ | ⟨f, l⟩
  · rw [List.head?_nil] at hfirst
    refine ⟨hnodup, rfl, ⟨?_, ?_, trivial⟩, ?_⟩
    · simp [TailQ.insertHead]
    · simp [TailQ.insertHead, hfirst]
    · simp [TailQ.insertHead, hfirst, endSlot]
  · rw [List.head?_cons] at hfirst
    obtain ⟨-, h2, h3⟩ := h.linked
    have hf : f ∉ l := (List.nodup_cons.mp h.nodup).1
    refine ⟨hnodup, rfl, ⟨?_, ?_, ?_, ?_, h3.congr (fun x hx => ?_) fun x hx => ?_⟩, ?_⟩
    · simp [TailQ.insertHead]
    · simp [TailQ.insertHead, hfirst]
    · simp [TailQ.insertHead, hfirst, hne f List.mem_cons_self]
    · simpa [TailQ.insertHead, hfirst, hne f List.mem_cons_self] using h2
    · simp [TailQ.insertHead, hfirst, hne x (List.mem_cons_of_mem f hx)]
    · have hxf : x ≠ f := by
        rintro rfl
        exact hf hx
      simp [TailQ.insertHead, hfirst, hne x (List.mem_cons_of_mem f hx), hxf]
    · simpa [TailQ.insertHead, hfirst, endSlot] using h.last

/-- `TAILQ_REMOVE` on a well-formed queue that contains the element. -/
theorem Repr.remove (h : q.Repr l) (he : e ∈ l) :
    ∃ q', q.remove e = some q' ∧ q'.Repr (l.erase e) := by
  obtain ⟨l₁, l₂, rfl⟩ := List.append_of_mem he
  have hnodup := h.nodup
  obtain ⟨hn1, hn2, hdisj⟩ := List.nodup_append.mp hnodup
  have he1 : e ∉ l₁ := fun hm => hdisj e hm e List.mem_cons_self rfl
  have herase : (l₁ ++ e :: l₂).erase e = l₁ ++ l₂ := by
    rw [List.erase_append_right _ he1, List.erase_cons_head]
  obtain ⟨hl1, hprev, hnext, hl2⟩ := linked_append.mp h.linked
  have hfirst : q.first = l₁.head?.or (some e) := by
    rw [h.first, List.head?_append, List.head?_cons]
  have hnodup' : (l₁ ++ l₂).Nodup := herase ▸ hnodup.erase e
  rw [herase]
  unfold TailQ.remove
  rcases l₂ with _ | ⟨n, r⟩
  · -- the last element: the queue now ends where it began
    have hlink : LinkedTo { q with last := q.prev e } l₁ (some e) :=
      ⟨hfirst, hl1.congr (fun _ _ => rfl) fun _ _ => rfl⟩
    obtain ⟨q', hs, ⟨hf', hl'⟩, hlast', -, -⟩ := hlink.store hn1 none
    have hnone : q.next e = none := hnext
    simp only [hnone]
    refine ⟨q', ?_, hnodup', ?_, ?_, ?_⟩
    · rw [hprev] at hs ⊢
      exact hs
    · simpa using hf'
    · simpa using hl'
    · rw [hlast', List.append_nil]
      exact hprev
  · -- an element follows: it is linked to where the removed one was
    have hsome : q.next e = some n := hnext
    obtain ⟨hpn, hnn, hr⟩ := hl2
    have hn1' : ∀ x ∈ l₁, x ≠ n := fun x hx =>
      hdisj x hx n (List.mem_cons_of_mem e List.mem_cons_self)
    have hnr : n ∉ r := (List.nodup_cons.mp (List.nodup_cons.mp hn2).2).1
    have hlink : LinkedTo { q with prev := Function.update q.prev n (q.prev e) } l₁ (some e) :=
      ⟨hfirst, hl1.congr (fun _ _ => rfl) fun x hx => Function.update_of_ne (hn1' x hx) _ _⟩
    obtain ⟨q', hs, ⟨hf', hl'⟩, hlast', hprev', hnext'⟩ := hlink.store hn1 (some n)
    have hkeep : ∀ x ∈ n :: r, q'.next x = q.next x := fun x hx =>
      hnext' x fun hm => hdisj x hm x (List.mem_cons_of_mem e hx) rfl
    have hen : e ≠ n := by
      rintro rfl
      exact (List.nodup_cons.mp hn2).1 List.mem_cons_self
    simp only [hsome]
    refine ⟨q', ?_, hnodup', ?_, linked_append.mpr ⟨hl', ?_, ?_, hr.congr (fun x hx => ?_)
      fun x hx => ?_⟩, ?_⟩
    · rw [Function.update_of_ne hen, hprev]
      rw [hprev] at hs
      exact hs
    · rw [List.head?_append]
      exact hf'
    · rw [hprev', ← hprev]
      exact Function.update_self n _ _
    · rw [hkeep n List.mem_cons_self, hnn]
    · exact hkeep x (List.mem_cons_of_mem n hx)
    · rw [hprev']
      refine Function.update_of_ne ?_ _ _
      rintro rfl
      exact hnr hx
    · rw [hlast', endSlot_append]
      have hlast := h.last
      rw [endSlot_append] at hlast
      exact hlast

end TailQ

end TailQueue
