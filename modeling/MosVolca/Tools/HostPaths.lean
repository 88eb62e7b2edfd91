import MosVolca.Fs.NameSets
import MosVolca.Tools.EndsOfDirectories

/-!
# Paths of the host and paths of the image

What a path leads to among the arguments of the formatter, and what the walk of the server along the
same names leads to in an image that holds the arguments.

## Main definitions

* `MosVolca.HostNode`, `MosVolca.HostDir.find`, `MosVolca.HostDir.resolve` — what is under a name and
  at a path on the host.
* `MosVolca.HoldsDir`, `MosVolca.IsNode` — a directory of the image with exactly these entries.

## Main results

* `MosVolca.HoldsDir.lookup_find` — the search for a name finds what the host has under it.
* `MosVolca.IsNode.walkOf_resolve` — the walk leads to what the host has at the path.
* `MosVolca.HoldsDir.isNode` — the structures of the image are those of the host or empty.
-/

namespace MosVolca

open Footprint DiskImage

variable {c c' : Blocks} {f g : FilePtr} {b e i j k w : ℕ} {name : List Char8} {d : HostDir}
  {elems : List (List Char8)}

/-! ## The host -/

/-- A file, a link or a directory of the host. -/
inductive HostNode
  | file (data : List Char8)
  | link (target : List Char8)
  | dir (children : HostDir)

namespace HostDir

/-- What is under a name. With two entries of one name it is the first one. -/
def find (name : List Char8) : HostDir → Option HostNode
  | .nil => none
  | .file name' data rest => if name' = name then some (.file data) else rest.find name
  | .link name' target rest => if name' = name then some (.link target) else rest.find name
  | .dir name' children rest => if name' = name then some (.dir children) else rest.find name

/-- One entry before the other ones. -/
def cons (name : List Char8) (x : HostNode) (rest : HostDir) : HostDir :=
  match x with
  | .file data => .file name data rest
  | .link target => .link name target rest
  | .dir children => .dir name children rest

lemma count_cons (name' : List Char8) (x : HostNode) (rest : HostDir) :
    (cons name' x rest).count = rest.count + 1 := by
  cases x <;> rfl

lemma find_cons (name' : List Char8) (x : HostNode) (rest : HostDir) :
    (cons name' x rest).find name = if name' = name then some x else rest.find name := by
  cases x <;> rfl

/-- What the names lead to. -/
def resolve : HostDir → List (List Char8) → Option HostNode
  | d, [] => some (.dir d)
  | d, name :: rest =>
    match d.find name with
    | some (.dir children) => children.resolve rest
    | some x => if rest = [] then some x else none
    | none => none

end HostDir

/-- What the names lead to from the node. -/
def HostNode.resolve : HostNode → List (List Char8) → Option HostNode
  | .dir d, elems => d.resolve elems
  | x, [] => some x
  | _, _ :: _ => none

namespace HostDir

/-- The names behind the first one lead on from what is under it. -/
lemma resolve_cons (d : HostDir) (name : List Char8) (rest : List (List Char8)) :
    d.resolve (name :: rest) = (d.find name).bind (HostNode.resolve · rest) := by
  rw [resolve]
  cases d.find name with
  | none => rfl
  | some x => cases x <;> cases rest <;> rfl

/-- The names are strings of C. -/
def CNames : HostDir → Prop
  | .nil => True
  | .file name _ rest | .link name _ rest => (0 : Char8) ∉ name ∧ rest.CNames
  | .dir name children rest => (0 : Char8) ∉ name ∧ children.CNames ∧ rest.CNames

lemma find_eq_none_of_long (hs : d.Short) (hlong : maxnamelen ≤ name.length) : d.find name = none := by
  have hne : ∀ name' : List Char8, name'.length < maxnamelen → name' ≠ name := by
    rintro name' hlt rfl
    omega
  induction d with
  | nil => rfl
  | file name' data rest ih =>
    rw [find, if_neg (hne _ hs.1)]
    exact ih hs.2
  | link name' target rest ih =>
    rw [find, if_neg (hne _ hs.1)]
    exact ih hs.2
  | dir name' children rest _ ihr =>
    rw [find, if_neg (hne _ hs.1)]
    exact ihr hs.2.2

end HostDir

lemma smallTree_cNames : smallTree.CNames :=
  ⟨by decide, by decide, by decide, ⟨by decide, trivial⟩, trivial⟩

/-! ## The image -/

/-- **The directory has exactly these entries.** -/
structure HoldsDir (c : Blocks) (f : FilePtr) (d : HostDir) : Prop where
  type : wordAt c f.type = ftypeDir
  size : wordAt c f.size = BitVec.ofNat 32 (4096 * blocksFor d.count)
  room : d.count ≤ 16384
  holds : Contains c f 0 d
  endsAt : EndsAt c f d.count
  ends : Ends c f 0 d
  narrow : d.Narrow
  names : d.CNames

/-- The structure is that of the file, of the link or of the directory. -/
def IsNode (c : Blocks) (g : FilePtr) : HostNode → Prop
  | .file data => wordAt c g.type = ftypeReg ∧ HasData c g data
  | .link target => wordAt c g.type = ftypeLnk ∧ HasData c g target ∧ TextAt c g target
  | .dir children => HoldsDir c g children

/-! ## The search in a directory -/

/-- No structure of the block has the name if no entry in it has. -/
lemma findEntry_eq_none (hb : blockOf c f i = some b)
    (hno : ∀ k, 16 * i ≤ k → k < 16 * (i + 1) → EntryAt c f k fun g => ¬ HasName c g name) :
    findEntry c b name = none := by
  unfold findEntry
  rw [List.find?_eq_none]
  intro j hj
  obtain ⟨k, hk, rfl⟩ := List.mem_range'.mp hj
  have hk16 : k < 16 := hk
  obtain ⟨b', hb', hk'⟩ := hno (16 * i + k) (by omega) (by omega)
  rw [show (16 * i + k) / 16 = i by omega] at hb'
  rw [show (16 * i + k) % 16 = k by omega] at hk'
  obtain rfl := Option.some.inj (hb.symm.trans hb')
  simp [hk']

/-- The first structure of the block with the name is the first entry with it. -/
lemma findEntry_eq_some (hb : blockOf c f i = some b) (hj : j < 16)
    (hname : HasName c (FilePtr.entry b j) name)
    (hbefore : ∀ k, 16 * i ≤ k → k < 16 * i + j → EntryAt c f k fun g => ¬ HasName c g name) :
    findEntry c b name = some j := by
  unfold findEntry
  rw [List.find?_range'_eq_some]
  refine ⟨decide_eq_true hname, List.mem_range'.mpr ⟨j, hj, by omega⟩, fun l _ hl => ?_⟩
  obtain ⟨b', hb', hno⟩ := hbefore (16 * i + l) (by omega) (by omega)
  rw [show (16 * i + l) / 16 = i by omega] at hb'
  rw [show (16 * i + l) % 16 = l by omega] at hno
  obtain rfl := Option.some.inj (hb.symm.trans hb')
  simp [hno]

/-- The search in the blocks from `i` on stops at the first entry with the name. -/
lemma lookupFrom_of_first {m : ℕ} (hi : 16 * i ≤ e) (he : e < 16 * (i + m))
    (hname : EntryAt c f e fun g => HasName c g name)
    (hbefore : ∀ k, 16 * i ≤ k → k < e → EntryAt c f k fun g => ¬ HasName c g name) :
    EntryAt c f e fun g => lookupFrom c f name m i = some g := by
  induction m generalizing i with
  | zero => omega
  | succ m ih =>
    rcases Nat.lt_or_ge e (16 * (i + 1)) with hlt | hge
    · -- the entry is in this block
      obtain ⟨b, hb, hentry⟩ := hname
      refine ⟨b, hb, ?_⟩
      rw [show e / 16 = i by omega] at hb
      have hfind := findEntry_eq_some hb (Nat.mod_lt e (by decide)) hentry fun k hk hk' =>
        hbefore k hk (by omega)
      rw [lookupFrom, hb, Option.bind_some, hfind]
      rfl
    · -- there is nothing in this block
      obtain ⟨b, hb, -⟩ := hbefore (16 * i) le_rfl (by omega)
      rw [show 16 * i / 16 = i by omega] at hb
      have hfind := findEntry_eq_none hb fun k hk hk' => hbefore k hk (by omega)
      have hrest := ih hge (by omega) fun k hk hke => hbefore k (by omega) hke
      rw [lookupFrom, hb, Option.bind_some, hfind]
      exact hrest

/-- The search in the blocks from `i` on ends without a file if no entry has the name. -/
lemma lookupFrom_eq_none {m : ℕ}
    (hno : ∀ k, 16 * i ≤ k → k < 16 * (i + m) → EntryAt c f k fun g => ¬ HasName c g name) :
    lookupFrom c f name m i = none := by
  induction m generalizing i with
  | zero => rfl
  | succ m ih =>
    obtain ⟨b, hb, -⟩ := hno (16 * i) le_rfl (by omega)
    rw [show 16 * i / 16 = i by omega] at hb
    have hfind := findEntry_eq_none hb fun k hk hk' => hno k hk (by omega)
    rw [lookupFrom, hb, Option.bind_some, hfind]
    exact ih fun k hk hk' => hno k (by omega) (by omega)

/-- What the search for a name comes to among `m` entries from entry `e` on. -/
def FindsFrom (c : Blocks) (f : FilePtr) (e : ℕ) (name : List Char8) (m : ℕ) : Option HostNode → Prop
  | some x => ∃ k < m, EntryAt c f (e + k) (fun g => HasName c g name ∧ IsNode c g x) ∧
      ∀ k' < k, EntryAt c f (e + k') fun g => ¬ HasName c g name
  | none => ∀ k < m, EntryAt c f (e + k) fun g => ¬ HasName c g name

/-- One entry before the other ones. -/
lemma FindsFrom.cons {m : ℕ} {x : HostNode} {y : Option HostNode} {name' : List Char8}
    (hrest : FindsFrom c f (e + 1) name m y)
    (hentry : EntryAt c f e fun g => HasName c g name' ∧ IsNode c g x) (h0 : (0 : Char8) ∉ name)
    (h0' : (0 : Char8) ∉ name') :
    FindsFrom c f e name (m + 1) (if name' = name then some x else y) := by
  split_ifs with heq
  · subst heq
    exact ⟨0, Nat.succ_pos m, hentry, fun k hk => absurd hk (Nat.not_lt_zero k)⟩
  · have hno : EntryAt c f e fun g => ¬ HasName c g name :=
      hentry.imp fun g hg hname => heq (hg.1.unique hname h0' h0)
    cases y with
    | none =>
      intro k hk
      cases k with
      | zero => exact hno
      | succ k =>
        rw [show e + (k + 1) = e + 1 + k by omega]
        exact hrest k (by omega)
    | some y =>
      obtain ⟨k, hk, hfound, hbefore⟩ := hrest
      refine ⟨k + 1, by omega, ?_, fun k' hk' => ?_⟩
      · rw [show e + (k + 1) = e + 1 + k by omega]
        exact hfound
      · cases k' with
        | zero => exact hno
        | succ k' =>
          rw [show e + (k' + 1) = e + 1 + k' by omega]
          exact hbefore k' (by omega)

/-- **Induction on the entries** of a directory of the image. -/
lemma entries_induction {P : ℕ → HostDir → Prop} (hnil : ∀ e, P e .nil)
    (hcons : ∀ e name x rest, (0 : Char8) ∉ name →
      EntryAt c f e (fun g => HasName c g name ∧ IsNode c g x) → P (e + 1) rest → P e (.cons name x rest))
    (hc : Contains c f e d) (he : Ends c f e d) (hw : d.Narrow) (hn : d.CNames) : P e d := by
  induction d generalizing e with
  | nil => exact hnil e
  | file name data rest ih =>
    apply hcons e name (.file data) rest hn.1 (hc.1.imp fun g hg => ?_) (ih hc.2 he hw hn.2)
    exact ⟨hg.1.hasName, hg.1.type, hg.2⟩
  | link name target rest ih =>
    apply hcons e name (.link target) rest hn.1 ((hc.1.and he.1).imp fun g hg => ?_) (ih hc.2 he.2 hw hn.2)
    exact ⟨hg.1.1.hasName, hg.1.1.type, hg.1.2, hg.2⟩
  | dir name children rest _ ihr =>
    apply hcons e name (.dir children) rest hn.1 ((hc.1.and he.1).imp fun g hg => ?_)
      (ihr hc.2 he.2 hw.2.2 hn.2.2)
    obtain ⟨⟨hname, hsize, hholds⟩, hend, hends⟩ := hg
    exact ⟨hname.hasName, hname.type, hsize, hw.1, hholds, hend, hends, hw.2.1, hn.2.1⟩

/-- **The search among the entries of the host** finds what is under the name. -/
lemma findsFrom_find (hc : Contains c f e d) (he : Ends c f e d) (hw : d.Narrow) (hn : d.CNames)
    (h0 : (0 : Char8) ∉ name) : FindsFrom c f e name d.count (d.find name) := by
  refine entries_induction (P := fun e d => FindsFrom c f e name d.count (d.find name)) (fun e k hk => ?_)
    (fun e name' x rest h0' hentry hrest => ?_) hc he hw hn
  · exact absurd hk (Nat.not_lt_zero k)
  · rw [HostDir.count_cons, HostDir.find_cons]
    exact hrest.cons hentry h0 h0'

namespace HoldsDir

variable (h : HoldsDir c f d)

include h in
lemma sizeBlocksOf_eq : sizeBlocksOf c f = blocksFor d.count := by
  have hroom := h.room
  have hle : blocksFor d.count ≤ 1024 := by
    unfold blocksFor
    omega
  rw [sizeBlocksOf, h.size, BitVec.toNat_ofNat, Nat.mod_eq_of_lt (by omega)]
  omega

include h in
/-- **`dir_lookup`** finds what the host has under the name. -/
theorem lookup_find (hname : IsName name) :
    match d.find name with
    | some x => ∃ g, lookup c f name = some g ∧ IsNode c g x
    | none => lookup c f name = none := by
  have hfinds := findsFrom_find h.holds h.ends h.narrow h.names hname.no_zero
  have hsize := h.sizeBlocksOf_eq
  have hcount : d.count ≤ 16 * blocksFor d.count := by
    unfold blocksFor
    omega
  cases hx : d.find name with
  | some x =>
    rw [hx] at hfinds
    obtain ⟨k, hk, hfound, hbefore⟩ := hfinds
    simp only [Nat.zero_add] at hfound hbefore
    have hfirst := lookupFrom_of_first (i := 0) (m := sizeBlocksOf c f) (by omega) (by omega)
      (hfound.imp fun g hg => hg.1) fun k' _ hk' => hbefore k' hk'
    obtain ⟨b, -, ⟨-, hnode⟩, hlookup⟩ := hfound.and hfirst
    exact ⟨_, hlookup, hnode⟩
  | none =>
    rw [hx] at hfinds
    apply lookupFrom_eq_none
    intro k _ hk
    rw [hsize, Nat.zero_add] at hk
    rcases Nat.lt_or_ge k d.count with hlt | hge
    · have hno := hfinds k hlt
      rwa [Nat.zero_add] at hno
    · -- behind the last entry there are zeros
      have hpos : 0 < blocksFor d.count := by omega
      have hlast : (0 + (d.count - 1)) / 16 = blocksFor d.count - 1 := by
        unfold blocksFor at hpos ⊢
        omega
      have hblock : k / 16 = blocksFor d.count - 1 := by
        unfold blocksFor at hk hpos ⊢
        omega
      obtain ⟨b, hb, -⟩ := hfinds (d.count - 1) (by
        unfold blocksFor at hpos
        omega)
      rw [hlast] at hb
      refine ⟨b, hblock ▸ hb, fun hhas => ?_⟩
      have hzero : c b (64 * (k % 16)) = 0 := by
        apply h.endsAt hpos b hb
        · unfold usedFor blocksFor
          unfold blocksFor at hk
          omega
        · omega
      have hbyte := hhas 0 (Nat.succ_pos _)
      rw [nameAt] at hbyte
      simp only [FilePtr.entry, Nat.zero_div, Nat.add_zero, hzero] at hbyte
      exact hname.head (hbyte.symm.trans (by simp))

end HoldsDir

/-- A structure with a node that is no directory. -/
lemma IsNode.type_ne {x : HostNode} (h : IsNode c g x) (hx : ∀ children, x ≠ .dir children) :
    wordAt c g.type ≠ ftypeDir := by
  cases x with
  | file data => exact h.1.trans_ne (by decide)
  | link target => exact h.1.trans_ne (by decide)
  | dir children => exact absurd rfl (hx children)

/-- What the walk leaves behind when the host has `r` at the path. -/
def LeadsTo (c : Blocks) (w : Walk) : Option HostNode → Prop
  | some x => w.code = 0 ∧ ∃ g, w.file = some g ∧ IsNode c g x
  | none => (w.code = -eBadPath ∨ w.code = -eNotFound) ∧ w.file = none

/-- A name behind something that is no directory leads to nothing. -/
lemma IsNode.walkOf_cons {x : HostNode} {dir : Option FilePtr} {rest : List (List Char8)}
    (h : IsNode c g x) (hx : ∀ children, x ≠ .dir children) :
    LeadsTo c (walkOf c dir g (name :: rest)) none := by
  rw [walkOf]
  by_cases hlong : name.length ≥ maxnamelen
  · rw [if_pos hlong]
    exact ⟨.inl rfl, rfl⟩
  · rw [if_neg hlong, if_pos (h.type_ne hx)]
    exact ⟨.inr rfl, rfl⟩

/-- **The walk of the server leads to what the host has at the path**, and to nothing else.

**Proof sketch.** Induction on the names. A name that is too long for the server is none of the
host, and the search for any other one finds what the host has under it. What is found is the same
node on both sides, where the hypothesis of the induction continues. Behind one that is no directory
no name leads anywhere. -/
theorem IsNode.walkOf_resolve {x : HostNode} {dir : Option FilePtr} (h : IsNode c f x)
    (hnames : ∀ e ∈ elems, IsName e) : LeadsTo c (walkOf c dir f elems) (x.resolve elems) := by
  induction elems generalizing f x dir with
  | nil =>
    have hself : x.resolve [] = some x := by
      cases x <;> rfl
    rw [hself]
    exact ⟨rfl, f, rfl, h⟩
  | cons name rest ih =>
    cases x with
    | file data => exact h.walkOf_cons fun _ h => by cases h
    | link target => exact h.walkOf_cons fun _ h => by cases h
    | dir d =>
      have hd : HoldsDir c f d := h
      show LeadsTo c _ (d.resolve (name :: rest))
      rw [walkOf, HostDir.resolve_cons]
      by_cases hlong : name.length ≥ maxnamelen
      · rw [if_pos hlong, HostDir.find_eq_none_of_long hd.holds.short hlong]
        exact ⟨.inl rfl, rfl⟩
      rw [if_neg hlong, if_neg (not_not_intro hd.type)]
      have hlookup := hd.lookup_find (hnames name List.mem_cons_self)
      cases hx : d.find name with
      | none =>
        simp only [hx] at hlookup
        rw [hlookup]
        simp only
        split_ifs <;> exact ⟨.inr rfl, rfl⟩
      | some x =>
        simp only [hx] at hlookup
        obtain ⟨g, hg, hnode⟩ := hlookup
        rw [hg]
        exact ih hnode fun e he => hnames e (List.mem_cons_of_mem name he)

/-! ## The structures of the image -/

/-- The bytes of a text and the zero behind it. -/
lemma textFrom_eq {text : List Char8} {m k : ℕ} (hm : text.length < m)
    (hbytes : ∀ i ≤ text.length, ByteWords.get (c b) (k + i) = (text ++ [0]).getD i 0) :
    textFrom c b m k = some (text.takeWhile (· ≠ 0)) := by
  induction text generalizing m k with
  | nil =>
    obtain ⟨m, rfl⟩ := Nat.exists_eq_succ_of_ne_zero (Nat.ne_of_gt hm)
    have h0 : ByteWords.get (c b) k = 0 := hbytes 0 le_rfl
    exact if_pos h0
  | cons x text ih =>
    obtain ⟨m, rfl⟩ := Nat.exists_eq_succ_of_ne_zero (Nat.ne_of_gt (Nat.zero_lt_of_lt hm))
    have hx : ByteWords.get (c b) k = x := hbytes 0 (Nat.zero_le _)
    have hrest := ih (m := m) (k := k + 1) (Nat.lt_of_succ_lt_succ hm) fun i hi => by
      rw [show k + 1 + i = k + (i + 1) by omega]
      exact hbytes (i + 1) (Nat.succ_le_succ hi)
    show (if ByteWords.get (c b) k = 0 then _ else (textFrom c b m (k + 1)).map
      (ByteWords.get (c b) k :: ·)) = _
    rw [hx, hrest]
    by_cases h0 : x = 0
    · subst h0
      simp
    · have hne : decide (x ≠ 0) = true := decide_eq_true h0
      rw [if_neg h0, List.takeWhile_cons, if_pos hne]
      rfl

/-- **The target of a link**, as the server reads it. -/
lemma TextAt.target_eq {text : List Char8} (ht : wordAt c g.type = ftypeLnk) (h : TextAt c g text) :
    wordAt c (g.direct 0) ≠ 0 ∧ target c g = some (text.takeWhile (· ≠ 0)) := by
  obtain ⟨hlen, hbytes⟩ := h
  obtain ⟨b, hb, -⟩ := hbytes 0 (by simp)
  obtain ⟨-, hne, hval⟩ := blockOf_eq_some.mp hb
  refine ⟨hne, ?_⟩
  rw [target, if_pos ht]
  apply textFrom_eq hlen
  intro i hi
  obtain ⟨b', hb', hget⟩ := hbytes i (by simpa using Nat.lt_succ_of_le hi)
  have hi0 : i / 4096 = 0 := Nat.div_eq_of_lt (by omega)
  rw [hi0] at hb'
  obtain rfl := Option.some.inj (hb.symm.trans hb')
  rw [Nat.mod_eq_of_lt (by omega)] at hget
  rw [Nat.zero_add, ← hget]
  exact congrArg (fun q => ByteWords.get (c q) i) hval

/-- Every entry is a node of the host. -/
lemma exists_isNode (hc : Contains c f e d) (he : Ends c f e d) (hw : d.Narrow) (hn : d.CNames)
    (hk : k < d.count) : EntryAt c f (e + k) fun g => ∃ x, IsNode c g x := by
  refine entries_induction (P := fun e d => ∀ k < d.count, EntryAt c f (e + k) fun g => ∃ x, IsNode c g x)
    (fun e k hk => absurd hk (Nat.not_lt_zero k)) (fun e name x rest _ hentry hrest k hk => ?_)
    hc he hw hn k hk
  cases k with
  | zero => exact hentry.imp fun g hg => ⟨x, hg.2⟩
  | succ k =>
    rw [HostDir.count_cons] at hk
    rw [show e + (k + 1) = e + 1 + k by omega]
    exact hrest k (Nat.lt_of_succ_lt_succ hk)

namespace HoldsDir

variable (h : HoldsDir c f d)

include h in
lemma entryAt (hk : k < d.count) : EntryAt c f k fun g => ∃ x, IsNode c g x := by
  have hentry := exists_isNode h.holds h.ends h.narrow h.names hk
  rwa [Nat.zero_add] at hentry

include h in
/-- The directory has all its blocks. -/
lemma exists_holds (hi : i < sizeBlocksOf c f) : ∃ b, Holds c f (.data i) b := by
  rw [h.sizeBlocksOf_eq] at hi
  obtain ⟨b, hb, -⟩ := h.entryAt (k := 16 * i) (by
    unfold blocksFor at hi
    omega)
  rw [Nat.mul_div_cancel_left i (by decide)] at hb
  exact ⟨b, blockOf_eq_some.mp hb⟩

include h in
/-- A structure in a block of the directory is a node of the host, or every word of it is zero. -/
lemma child (hb : blockOf c f i = some b) (hi : i < sizeBlocksOf c f) (hj : j < file2blk) :
    (∃ x, IsNode c (FilePtr.entry b j) x) ∨ ∀ w < 64, c b (64 * j + w) = 0 := by
  have hj16 : j < 16 := hj
  rw [h.sizeBlocksOf_eq] at hi
  rcases Nat.lt_or_ge (16 * i + j) d.count with hlt | hge
  · left
    obtain ⟨b', hb', hnode⟩ := h.entryAt hlt
    rw [show (16 * i + j) / 16 = i by omega] at hb'
    rw [show (16 * i + j) % 16 = j by omega] at hnode
    obtain rfl := Option.some.inj (hb.symm.trans hb')
    exact hnode
  · right
    intro w hw
    have hlast : i = blocksFor d.count - 1 := by
      unfold blocksFor at hi ⊢
      omega
    rw [hlast] at hb
    apply h.endsAt (Nat.zero_lt_of_lt hi) b hb
    · unfold usedFor blocksFor
      unfold blocksFor at hi
      omega
    · omega

end HoldsDir

/-- **Every structure of the image** is one of a node of the host, or empty. -/
theorem HoldsDir.isNode (h : HoldsDir c FilePtr.root d) (hf : Dirent c f) :
    (∃ x, IsNode c f x) ∨ ∀ w < 64, c f.block (f.word + w) = 0 := by
  induction hf with
  | root => exact .inl ⟨.dir d, h⟩
  | @child g b j hg hb hj ih =>
    obtain ⟨hdir, i, hi, hold⟩ := hb
    rcases ih with ⟨x, hx⟩ | hzero
    · -- only the structure of a directory has the type
      cases x with
      | file data => exact absurd (hx.1.symm.trans hdir) (by decide)
      | link target => exact absurd (hx.1.symm.trans hdir) (by decide)
      | dir children => exact HoldsDir.child hx (blockOf_eq_some.mpr hold) hi hj
    · have htype : wordAt c g.type = 0 := hzero 33 (by decide)
      exact absurd (htype.symm.trans hdir) (by decide)

end MosVolca
