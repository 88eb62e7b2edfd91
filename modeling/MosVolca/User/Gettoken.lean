import MosVolca.User.Sh

/-!
# The tokens of a command line

`_gettoken` and `gettoken` of `user/sh.c`, on the bytes of the line with the null byte at its end. A
pointer into the line is an index, and an access outside the line stops the function. Words are ended
by the null bytes that are stored while the next token is looked for.

## Main definitions

* `MosVolca.gettokenAt`, `MosVolca.gettoken` — the functions.
* `MosVolca.tokenCalls` — the calls for a line.
* `MosVolca.tokens` — the tokens of a line.
* `MosVolca.QuotesClosed` — every double quote that opens a token is closed.

## Main results

* `MosVolca.gettoken_staysInside_iff` — when the calls stay in the line.
* `MosVolca.gettoken_returns_tokens` — the calls return the tokens of the line.
-/

namespace MosVolca

/-- `WHITESPACE`. -/
def whitespace : Text := [0x20, 0x09, 0x0d, 0x0a]

/-- `SYMBOLS`. -/
def symbols : Text := [0x3c, 0x7c, 0x3e, 0x26, 0x3b, 0x28, 0x29, 0x24]

/-- The double quote. -/
def quote : BitVec 8 := 0x22

/-! ## The functions -/

/-- `strchr`, as a condition: it does not find the null byte at the end of the string. -/
def strchr (s : Text) (c : BitVec 8) : Bool := s.contains c

/-- A byte is stored: `none` if it is outside the line. -/
def storeAt (buf : Text) (s : ℕ) (c : BitVec 8) : Option Text :=
  if s < buf.length then some (buf.set s c) else none

/-- `while (strchr(WHITESPACE, *s)) *s++ = 0`. -/
def skipBlanks (buf : Text) (s : ℕ) : Option (Text × ℕ) :=
  if h : s < buf.length then
    if strchr whitespace buf[s] then skipBlanks (buf.set s 0) (s + 1) else some (buf, s)
  else none
termination_by buf.length - s
decreasing_by
  rw [List.length_set]
  omega

/-- `while (p(*s)) s++`. -/
def scanWhile (p : BitVec 8 → Bool) (buf : Text) (s : ℕ) : Option ℕ :=
  if h : s < buf.length then
    if p buf[s] then scanWhile p buf (s + 1) else some s
  else none
termination_by buf.length - s

/-- `*s && *s != '"'`. -/
def inQuotes (c : BitVec 8) : Bool := c != 0 && c != quote

/-- `*s && !strchr(WHITESPACE SYMBOLS, *s)`. -/
def inWord (c : BitVec 8) : Bool := c != 0 && !strchr (whitespace ++ symbols) c

/-- What `_gettoken` returns, and what it stores. -/
structure Scan where
  c : BitVec 8
  p1 : Option ℕ
  p2 : Option ℕ
  buf : Text

/-- `_gettoken`. -/
def gettokenAt (buf : Text) : Option ℕ → Option Scan
  | none => some ⟨0, none, none, buf⟩
  | some s => do
    let (buf, s) ← skipBlanks buf s
    let c ← buf[s]?
    if c = 0 then pure ⟨0, none, none, buf⟩
    else if c = quote then do
      let e ← scanWhile inQuotes buf (s + 1)
      -- the byte may be the end of the line, and then `e + 1` is behind it
      let buf ← storeAt buf e 0
      pure ⟨0x77, some (s + 1), some (e + 1), buf⟩
    else if strchr symbols c then do
      let buf ← storeAt buf s 0
      pure ⟨c, some s, some (s + 1), buf⟩
    else do
      let e ← scanWhile inWord buf s
      pure ⟨0x77, some s, some e, buf⟩

/-- The static variables of `gettoken`, and the line. -/
structure TokenState where
  c : BitVec 8
  nc : BitVec 8
  np1 : Option ℕ
  np2 : Option ℕ
  buf : Text

/-- `gettoken`, with what it returns and what it stores in `*p1`. -/
def gettoken (st : TokenState) : Option ℕ → Option (TokenState × BitVec 8 × Option ℕ)
  | some s => do
    let x ← gettokenAt st.buf (some s)
    pure ({ c := st.c, nc := x.c, np1 := x.p1, np2 := x.p2, buf := x.buf }, 0, none)
  | none => do
    let x ← gettokenAt st.buf st.np2
    pure ({ c := st.nc, nc := x.c, np1 := x.p1, np2 := x.p2, buf := x.buf }, st.nc, st.np1)

/-- `n` calls of `gettoken(0, &t)`, with what they return. -/
def tokenCalls (st : TokenState) : ℕ → Option (TokenState × List (BitVec 8 × Option ℕ))
  | 0 => some (st, [])
  | n + 1 => do
    let (st, r) ← gettoken st none
    let (st, out) ← tokenCalls st n
    pure (st, r :: out)

/-- `gettoken(line, 0)` and `n` calls of `gettoken(0, &t)`. The static variables hold what an earlier
line has left in them. -/
def lineCalls (old : TokenState) (line : Text) (n : ℕ) :
    Option (TokenState × List (BitVec 8 × Option ℕ)) := do
  let (st, _) ← gettoken { old with buf := line ++ [0] } (some 0)
  tokenCalls st n

/-! ## The tokens -/

/-- What `gettoken` returns for a token. -/
def Token.code : Token → BitVec 8
  | .word _ => 0x77
  | .dollar => 0x24
  | .less => 0x3c
  | .greater => 0x3e
  | .bar => 0x7c
  | .semi => 0x3b
  | .amp => 0x26
  | .lparen => 0x28
  | .rparen => 0x29

/-- The tokens that are not words. -/
def symbolTokens : List Token :=
  [.less, .bar, .greater, .amp, .semi, .lparen, .rparen, .dollar]

/-- The token that a byte is. -/
def symbolToken (c : BitVec 8) : Option Token := symbolTokens.find? (·.code == c)

/-- The byte separates tokens. -/
def isBlank (c : BitVec 8) : Bool := whitespace.contains c

/-- The byte may stand in a word that is not quoted. -/
def isWordByte (c : BitVec 8) : Bool := !whitespace.contains c && !symbols.contains c

/-- The first token of a line, and what is left of the line behind it. -/
def splitToken (l : Text) : Option (Token × Text) :=
  match l.dropWhile isBlank with
  | [] => none
  | c :: rest =>
    if c = quote then
      some (.word (rest.takeWhile (· != quote)), (rest.dropWhile (· != quote)).tail)
    else
      match symbolToken c with
      | some t => some (t, rest)
      | none => some (.word (c :: rest.takeWhile isWordByte), rest.dropWhile isWordByte)

/-- If the first token opens with a double quote, it is closed. -/
def OpeningClosed (l : Text) : Prop := ∀ rest, l.dropWhile isBlank = quote :: rest → quote ∈ rest

/-- **Every double quote that opens a token is closed.** -/
inductive QuotesClosed : Text → Prop
  | done {l : Text} (h : splitToken l = none) : QuotesClosed l
  | token {l rest : Text} {t : Token} (hopen : OpeningClosed l)
      (h : splitToken l = some (t, rest)) (hrest : QuotesClosed rest) : QuotesClosed l

/-- What is left of a line behind its first token is behind a byte of the token. -/
lemma splitToken_suffix {l rest : Text} {t : Token} (h : splitToken l = some (t, rest)) :
    ∃ c tl, l.dropWhile isBlank = c :: tl ∧ rest <:+ tl := by
  unfold splitToken at h
  split at h
  · exact absurd h (by simp)
  · rename_i c tl heq
    refine ⟨c, tl, heq, ?_⟩
    split_ifs at h
    · rw [Option.some.injEq, Prod.mk.injEq] at h
      rw [← h.2]
      exact (List.tail_suffix _).trans (List.dropWhile_suffix _)
    · split at h
      · rw [Option.some.injEq, Prod.mk.injEq] at h
        rw [← h.2]
      · rw [Option.some.injEq, Prod.mk.injEq] at h
        rw [← h.2]
        exact List.dropWhile_suffix _

lemma splitToken_length {l rest : Text} {t : Token} (h : splitToken l = some (t, rest)) :
    rest.length < l.length := by
  obtain ⟨c, tl, hd, hsuf⟩ := splitToken_suffix h
  have hdrop := (List.dropWhile_sublist isBlank (l := l)).length_le
  have hle := hsuf.length_le
  rw [hd, List.length_cons] at hdrop
  omega

/-- **The tokens of a line.** -/
def tokens (l : Text) : List Token :=
  match _h : splitToken l with
  | none => []
  | some (t, rest) => t :: tokens rest
termination_by l.length
decreasing_by exact splitToken_length (by assumption)

/-- The string at a place of the line. -/
def StringAt (buf : Text) (p : ℕ) (w : Text) : Prop :=
  0 ∉ w ∧ ∃ pre post, buf = pre ++ w ++ 0 :: post ∧ pre.length = p

/-! ## Loops over the rest of the line -/

section Lists

variable {done rest l w : Text} {c : BitVec 8} {p : BitVec 8 → Bool} {t : Token}

lemma getElem_length_append (h : done.length < (done ++ c :: l).length) :
    (done ++ c :: l)[done.length] = c := by
  rw [List.getElem_append_right le_rfl]
  simp only [Nat.sub_self, List.getElem_cons_zero]

lemma set_length_append (a : BitVec 8) : (done ++ c :: l).set done.length a = done ++ a :: l := by
  rw [List.set_append_right _ _ le_rfl, Nat.sub_self, List.set_cons_zero]

lemma length_lt_append : done.length < (done ++ c :: l).length := by
  rw [List.length_append, List.length_cons]
  omega

/-- The blanks are overwritten. -/
lemma skipBlanks_eq (done rest : Text) : skipBlanks (done ++ (rest ++ [0])) done.length =
    some (done ++ List.replicate (rest.takeWhile isBlank).length 0 ++
      (rest.dropWhile isBlank ++ [0]), done.length + (rest.takeWhile isBlank).length) := by
  induction rest generalizing done with
  | nil =>
    rw [List.nil_append, skipBlanks, dif_pos length_lt_append, getElem_length_append,
      if_neg (by decide)]
    simp only [List.takeWhile_nil, List.dropWhile_nil, List.length_nil, List.replicate_zero,
      List.append_nil, List.nil_append, Nat.add_zero]
  | cons c rest ih =>
    rw [List.cons_append, skipBlanks, dif_pos length_lt_append, getElem_length_append,
      set_length_append]
    by_cases hc : isBlank c = true
    · have hs : strchr whitespace c = true := hc
      have h := ih (done ++ [0])
      rw [List.length_append, List.length_singleton, List.append_assoc, List.singleton_append] at h
      rw [if_pos hs, h, List.takeWhile_cons_of_pos hc, List.dropWhile_cons_of_pos hc,
        List.length_cons, List.replicate_succ, Nat.add_right_comm, Nat.add_assoc]
      simp only [List.append_assoc, List.cons_append, List.nil_append]
    · have hs : ¬ strchr whitespace c = true := hc
      rw [if_neg hs, List.takeWhile_cons_of_neg hc, List.dropWhile_cons_of_neg hc]
      simp only [List.length_nil, List.replicate_zero, List.append_nil, List.cons_append,
        Nat.add_zero]

/-- A loop that stops at the null byte finds the end of its run. -/
lemma scanWhile_eq (hp : p 0 = false) (done rest : Text) :
    scanWhile p (done ++ (rest ++ [0])) done.length =
      some (done.length + (rest.takeWhile p).length) := by
  induction rest generalizing done with
  | nil =>
    rw [List.nil_append, scanWhile, dif_pos length_lt_append, getElem_length_append,
      if_neg (by rw [hp]; exact Bool.false_ne_true)]
    rfl
  | cons c rest ih =>
    rw [List.cons_append, scanWhile, dif_pos length_lt_append, getElem_length_append]
    by_cases hc : p c = true
    · have h := ih (done ++ [c])
      rw [List.length_append, List.length_singleton, List.append_assoc, List.singleton_append] at h
      rw [if_pos hc, h, List.takeWhile_cons_of_pos hc, List.length_cons, Nat.add_right_comm,
        Nat.add_assoc]
    · rw [if_neg hc, List.takeWhile_cons_of_neg hc]
      rfl

/-! ## Symbols -/

/-- The symbols are the bytes of their tokens. -/
lemma symbols_eq : ∀ c, strchr symbols c = (symbolToken c).isSome := by decide

lemma code_of_symbolToken (h : symbolToken c = some t) : t.code = c := by
  have := List.find?_some h
  simpa using this

lemma symbolToken_ne_word (h : symbolToken c = some t) : t ≠ .word w := by
  rintro rfl
  have hmem := List.mem_of_find?_eq_some h
  simp [symbolTokens] at hmem

/-! ## One token -/

/-- The rest of the line does not go on with a byte of a word. -/
def Delimited (rest : Text) : Prop := ∀ c ∈ rest.head?, isWordByte c = false

/-- The pointer to a token that has been found in `done`: a word ends with a null byte, or where the
rest of the line begins. -/
def Marks (done rest : Text) (p : Option ℕ) : Token → Prop
  | .word w => 0 ∉ w ∧ ∃ pre, p = some pre.length ∧
      ((∃ post, done = pre ++ w ++ 0 :: post) ∨ done = pre ++ w ∧ Delimited rest)
  | _ => True

lemma storeAt_length_append (a : BitVec 8) :
    storeAt (done ++ c :: l) done.length a = some (done ++ a :: l) := by
  rw [storeAt, if_pos length_lt_append, set_length_append]

lemma getElem?_length_append : (done ++ c :: l)[done.length]? = some c := by
  rw [List.getElem?_append_right le_rfl, Nat.sub_self, List.getElem?_cons_zero]

lemma splitToken_eq_none_iff : splitToken rest = none ↔ rest.dropWhile isBlank = [] := by
  unfold splitToken
  split
  · simp_all
  · split_ifs <;> simp_all
    split <;> simp

/-- A part of the line has no null byte. -/
lemma zero_notMem_of_dropWhile (h0 : 0 ∉ rest) (hd : rest.dropWhile p = l) : 0 ∉ l := by
  intro hl
  rw [← hd] at hl
  exact h0 ((List.dropWhile_sublist p).mem hl)

/-- The first part of `_gettoken`. -/
lemma gettokenAt_eq (done rest : Text) : gettokenAt (done ++ (rest ++ [0])) (some done.length) =
    (let done' := done ++ List.replicate (rest.takeWhile isBlank).length 0
    let buf := done' ++ (rest.dropWhile isBlank ++ [0])
    do
      let c ← buf[done'.length]?
      if c = 0 then pure ⟨0, none, none, buf⟩
      else if c = quote then do
        let e ← scanWhile inQuotes buf (done'.length + 1)
        let buf ← storeAt buf e 0
        pure ⟨0x77, some (done'.length + 1), some (e + 1), buf⟩
      else if strchr symbols c then do
        let buf ← storeAt buf done'.length 0
        pure ⟨c, some done'.length, some (done'.length + 1), buf⟩
      else do
        let e ← scanWhile inWord buf done'.length
        pure ⟨0x77, some done'.length, some e, buf⟩) := by
  rw [gettokenAt, skipBlanks_eq]
  simp only [Option.bind_eq_bind, Option.bind_some, List.length_append, List.length_replicate]

/-- The end of the line is found. -/
lemma gettokenAt_end (h : splitToken rest = none) :
    gettokenAt (done ++ (rest ++ [0])) (some done.length) =
      some ⟨0, none, none,
        done ++ List.replicate (rest.takeWhile isBlank).length 0 ++ ([] ++ [0])⟩ := by
  rw [gettokenAt_eq, splitToken_eq_none_iff.mp h]
  dsimp only
  rw [List.nil_append, getElem?_length_append]
  rfl

/-- Blanks in front of a token are overwritten. -/
lemma head_replicate (hd : rest.dropWhile isBlank = c :: l) (hc : isWordByte c = true)
    (hrest : Delimited rest) (m : Text) :
    (List.replicate (rest.takeWhile isBlank).length 0 ++ m).head? = some 0 := by
  rcases hb : rest.takeWhile isBlank with _ | ⟨b, bs⟩
  · have hcl := List.takeWhile_append_dropWhile (p := isBlank) (l := rest)
    rw [hb, hd, List.nil_append] at hcl
    have := hrest c (by rw [← hcl]; rfl)
    rw [hc] at this
    exact absurd this (by decide)
  · rfl

lemma takeWhile_congr {q : BitVec 8 → Bool} (h : ∀ x ∈ l, p x = q x) :
    l.takeWhile p = l.takeWhile q := by
  induction l with
  | nil => rfl
  | cons a l ih =>
    rw [List.takeWhile_cons, List.takeWhile_cons, h a List.mem_cons_self,
      ih fun x hx => h x (List.mem_cons_of_mem a hx)]

lemma takeWhile_inQuotes (h0 : 0 ∉ l) : l.takeWhile inQuotes = l.takeWhile (· != quote) := by
  apply takeWhile_congr
  intro x hx
  have hx0 : x ≠ 0 := fun h => h0 (h ▸ hx)
  rw [inQuotes, bne_iff_ne.mpr hx0, Bool.true_and]

lemma takeWhile_inWord (h0 : 0 ∉ l) : l.takeWhile inWord = l.takeWhile isWordByte := by
  apply takeWhile_congr
  intro x hx
  have hx0 : x ≠ 0 := fun h => h0 (h ▸ hx)
  rw [inWord, bne_iff_ne.mpr hx0, Bool.true_and, isWordByte, strchr, List.contains_eq_mem,
    List.contains_eq_mem, List.contains_eq_mem]
  simp only [List.mem_append, Bool.decide_or, Bool.not_or]

/-- The first part of `_gettoken`, in front of a token. -/
lemma gettokenAt_cons (hd : rest.dropWhile isBlank = c :: l) (hc0 : c ≠ 0) :
    gettokenAt (done ++ (rest ++ [0])) (some done.length) =
    (let done' := done ++ List.replicate (rest.takeWhile isBlank).length 0
    let buf := done' ++ c :: (l ++ [0])
    if c = quote then do
      let e ← scanWhile inQuotes buf (done'.length + 1)
      let buf ← storeAt buf e 0
      pure ⟨0x77, some (done'.length + 1), some (e + 1), buf⟩
    else if strchr symbols c then do
      let buf ← storeAt buf done'.length 0
      pure ⟨c, some done'.length, some (done'.length + 1), buf⟩
    else do
      let e ← scanWhile inWord buf done'.length
      pure ⟨0x77, some done'.length, some e, buf⟩) := by
  rw [gettokenAt_eq, hd]
  dsimp only
  rw [List.cons_append, getElem?_length_append]
  simp only [Option.bind_eq_bind, Option.bind_some, if_neg hc0]

/-- A quoted word, up to the byte that ends it. -/
lemma gettokenAt_quoted (hd : rest.dropWhile isBlank = quote :: l) (h0 : 0 ∉ l) :
    gettokenAt (done ++ (rest ++ [0])) (some done.length) =
    (let done' := done ++ List.replicate (rest.takeWhile isBlank).length 0 ++ [quote]
    let w := l.takeWhile (· != quote)
    do
      let buf ← storeAt (done' ++ w ++ (l.dropWhile (· != quote) ++ [0])) (done' ++ w).length 0
      pure ⟨0x77, some done'.length, some ((done' ++ w).length + 1), buf⟩) := by
  rw [gettokenAt_cons hd (by decide)]
  dsimp only
  set pre := done ++ List.replicate (rest.takeWhile isBlank).length 0 ++ [quote] with hpre
  have hbuf : done ++ List.replicate (rest.takeWhile isBlank).length 0 ++ quote :: (l ++ [0]) =
      pre ++ (l ++ [0]) := by
    rw [hpre, List.append_assoc _ [quote], List.singleton_append]
  have hlen : (done ++ List.replicate (rest.takeWhile isBlank).length 0).length + 1 =
      pre.length := by
    simp only [hpre, List.length_append, List.length_singleton]
  rw [if_pos rfl, hbuf, hlen, scanWhile_eq (by decide), takeWhile_inQuotes h0]
  simp only [Option.bind_eq_bind, Option.bind_some]
  rw [← List.length_append, List.append_assoc pre, ← List.append_assoc (l.takeWhile _),
    List.takeWhile_append_dropWhile]

/-- A quoted word that is closed. -/
lemma gettokenAt_closed (hd : rest.dropWhile isBlank = quote :: l) (h0 : 0 ∉ l) (hq : quote ∈ l) :
    gettokenAt (done ++ (rest ++ [0])) (some done.length) =
    (let pre := done ++ List.replicate (rest.takeWhile isBlank).length 0 ++ [quote]
    let w := l.takeWhile (· != quote)
    some ⟨0x77, some pre.length, some (pre ++ w ++ [0]).length,
      pre ++ w ++ [0] ++ ((l.dropWhile (· != quote)).tail ++ [0])⟩) := by
  have hdrop : l.dropWhile (· != quote) = quote :: (l.dropWhile (· != quote)).tail := by
    have hne : l.dropWhile (· != quote) ≠ [] := by
      rw [Ne, List.dropWhile_eq_nil_iff]
      intro hall
      exact absurd (hall quote hq) (by decide)
    have hhead := List.head_dropWhile_not (· != quote) hne
    rw [bne_eq_false_iff_eq] at hhead
    exact (List.cons_head_tail hne).symm.trans (by rw [hhead])
  rw [gettokenAt_quoted hd h0, hdrop]
  dsimp only
  rw [List.cons_append, storeAt_length_append]
  simp only [Option.bind_eq_bind, Option.bind_some, Option.pure_def, List.tail_cons,
    List.append_assoc, List.singleton_append, List.length_append, List.length_cons, List.length_nil,
    Nat.add_assoc]

/-- A quoted word that is not closed: the next pointer is behind the null byte of the line. -/
lemma gettokenAt_unclosed (done : Text) (hd : rest.dropWhile isBlank = quote :: l) (h0 : 0 ∉ l)
    (hq : quote ∉ l) : gettokenAt (done ++ (rest ++ [0])) (some done.length) =
    (let pre := done ++ List.replicate (rest.takeWhile isBlank).length 0 ++ [quote]
    some ⟨0x77, some pre.length, some (pre ++ l ++ [0]).length, pre ++ l ++ [0]⟩) := by
  have hall : ∀ x ∈ l, (x != quote) = true := by
    intro x hx
    rw [bne_iff_ne]
    exact fun h => hq (h ▸ hx)
  rw [gettokenAt_quoted hd h0, List.takeWhile_eq_self_iff.mpr hall,
    List.dropWhile_eq_nil_iff.mpr hall]
  dsimp only
  rw [List.nil_append, storeAt_length_append]
  simp only [Option.bind_eq_bind, Option.bind_some, Option.pure_def, List.length_append,
    List.length_singleton]

/-- A symbol. -/
lemma gettokenAt_symbol (hd : rest.dropWhile isBlank = c :: l) (hc0 : c ≠ 0) (hq : c ≠ quote)
    (hs : symbolToken c = some t) : gettokenAt (done ++ (rest ++ [0])) (some done.length) =
    (let pre := done ++ List.replicate (rest.takeWhile isBlank).length 0
    some ⟨t.code, some pre.length, some (pre ++ [0]).length, pre ++ [0] ++ (l ++ [0])⟩) := by
  have hsym : strchr symbols c = true := by rw [symbols_eq, hs, Option.isSome_some]
  rw [gettokenAt_cons hd hc0]
  dsimp only
  rw [if_neg hq, if_pos hsym, storeAt_length_append, code_of_symbolToken hs]
  simp only [Option.bind_eq_bind, Option.bind_some, Option.pure_def, List.append_assoc,
    List.singleton_append, List.length_append, List.length_cons, List.length_nil, Nat.add_assoc]

/-- A word that is not quoted. -/
lemma gettokenAt_word (hd : rest.dropWhile isBlank = c :: l) (h0 : 0 ∉ c :: l) (hq : c ≠ quote)
    (hs : symbolToken c = none) : gettokenAt (done ++ (rest ++ [0])) (some done.length) =
    (let pre := done ++ List.replicate (rest.takeWhile isBlank).length 0
    let w := (c :: l).takeWhile isWordByte
    some ⟨0x77, some pre.length, some (pre ++ w).length,
      pre ++ w ++ ((c :: l).dropWhile isWordByte ++ [0])⟩) := by
  have hsym : ¬ strchr symbols c = true := by
    rw [symbols_eq, hs]
    decide
  rw [gettokenAt_cons hd fun hc => h0 (hc ▸ List.mem_cons_self)]
  dsimp only
  rw [if_neg hq, if_neg hsym, ← List.cons_append, scanWhile_eq (by decide), takeWhile_inWord h0]
  simp only [Option.bind_eq_bind, Option.bind_some, Option.pure_def, List.length_append]
  rw [List.append_assoc _ (List.takeWhile _ _), ← List.append_assoc (List.takeWhile _ _),
    List.takeWhile_append_dropWhile]

/-- `_gettoken` finds a token in front of `rest'`. The null bytes that it stores end a word that the
rest of the line was the delimiter of. -/
def Finds (done rest : Text) (t : Token) (rest' : Text) : Prop :=
  ∃ mid p, gettokenAt (done ++ (rest ++ [0])) (some done.length) =
      some ⟨t.code, p, some (done ++ mid).length, done ++ mid ++ (rest' ++ [0])⟩ ∧
    Marks (done ++ mid) rest' p t ∧ (Delimited rest → mid.head? = some 0)

lemma finds_quoted (hd : rest.dropWhile isBlank = quote :: l) (h0 : 0 ∉ l) (hq : quote ∈ l) :
    Finds done rest (.word (l.takeWhile (· != quote))) (l.dropWhile (· != quote)).tail := by
  have hw : 0 ∉ l.takeWhile (· != quote) := fun hmem => h0 ((List.takeWhile_sublist _).mem hmem)
  refine ⟨List.replicate (rest.takeWhile isBlank).length 0 ++
    ([quote] ++ l.takeWhile (· != quote) ++ [0]), _, ?_, ⟨hw,
    done ++ List.replicate (rest.takeWhile isBlank).length 0 ++ [quote], rfl, .inl ⟨[], ?_⟩⟩, ?_⟩
  · rw [gettokenAt_closed hd h0 hq]
    simp only [List.append_assoc]
    rfl
  · simp only [List.append_assoc]
  · exact fun hrest => head_replicate hd (by decide) hrest _

lemma finds_symbol (hd : rest.dropWhile isBlank = c :: l) (hc0 : c ≠ 0) (hq : c ≠ quote)
    (hs : symbolToken c = some t) : Finds done rest t l := by
  refine ⟨List.replicate (rest.takeWhile isBlank).length 0 ++ [0],
    some (done ++ List.replicate (rest.takeWhile isBlank).length 0).length, ?_, ?_, ?_⟩
  · rw [gettokenAt_symbol hd hc0 hq hs]
    simp only [List.append_assoc]
  · cases t with
    | word w => exact absurd rfl (symbolToken_ne_word hs)
    | _ => trivial
  · intro _
    rw [← List.replicate_succ']
    rfl

/-- The byte after the blanks is not one of them. -/
lemma isBlank_eq_false (hd : rest.dropWhile isBlank = c :: l) : isBlank c = false := by
  have hne : rest.dropWhile isBlank ≠ [] := by
    rw [hd]
    exact List.cons_ne_nil c l
  have hhead := List.head_dropWhile_not isBlank hne
  simpa only [hd, List.head_cons] using hhead

lemma isWordByte_of_symbolToken (hb : isBlank c = false) (hs : symbolToken c = none) :
    isWordByte c = true := by
  have hsym := symbols_eq c
  rw [hs, strchr] at hsym
  rw [isBlank] at hb
  rw [isWordByte, hb, hsym]
  rfl

/-- A word ends at a blank or at a symbol. -/
lemma finds_word (hd : rest.dropWhile isBlank = c :: l) (h0 : 0 ∉ c :: l) (hq : c ≠ quote)
    (hs : symbolToken c = none) :
    Finds done rest (.word (c :: l.takeWhile isWordByte)) (l.dropWhile isWordByte) := by
  have hword := isWordByte_of_symbolToken (isBlank_eq_false hd) hs
  have htake : (c :: l).takeWhile isWordByte = c :: l.takeWhile isWordByte :=
    List.takeWhile_cons_of_pos hword
  have hdrop : (c :: l).dropWhile isWordByte = l.dropWhile isWordByte :=
    List.dropWhile_cons_of_pos hword
  have hw : 0 ∉ c :: l.takeWhile isWordByte := by
    rw [← htake]
    exact fun hmem => h0 ((List.takeWhile_sublist _).mem hmem)
  refine ⟨List.replicate (rest.takeWhile isBlank).length 0 ++ (c :: l.takeWhile isWordByte), _, ?_,
    ⟨hw, done ++ List.replicate (rest.takeWhile isBlank).length 0, rfl, .inr ⟨?_, ?_⟩⟩, ?_⟩
  · rw [gettokenAt_word hd h0 hq hs, htake, hdrop]
    simp only [List.append_assoc]
    rfl
  · rw [List.append_assoc]
  · intro x hx
    have hhead := List.head?_dropWhile_not isWordByte l
    rw [Option.mem_def] at hx
    rwa [hx] at hhead
  · exact fun hrest => head_replicate hd hword hrest _

/-- **The first token of the rest of the line is found.** -/
lemma gettokenAt_finds (done : Text) {rest' : Text} (h0 : 0 ∉ rest) (hopen : OpeningClosed rest)
    (h : splitToken rest = some (t, rest')) : Finds done rest t rest' := by
  rcases hd : rest.dropWhile isBlank with _ | ⟨c, l⟩
  · rw [splitToken_eq_none_iff.mpr hd] at h
    exact absurd h (by simp)
  have h0' := zero_notMem_of_dropWhile h0 hd
  have hl : 0 ∉ l := fun hmem => h0' (List.mem_cons_of_mem c hmem)
  simp only [splitToken, hd] at h
  by_cases hq : c = quote
  · subst hq
    rw [if_pos rfl, Option.some.injEq, Prod.mk.injEq] at h
    rw [← h.1, ← h.2]
    exact finds_quoted hd hl (hopen l hd)
  · rw [if_neg hq] at h
    cases hs : symbolToken c with
    | some t' =>
      rw [hs, Option.some.injEq, Prod.mk.injEq] at h
      rw [← h.1, ← h.2]
      exact finds_symbol hd (fun hc => h0' (hc ▸ List.mem_cons_self)) hq hs
    | none =>
      rw [hs, Option.some.injEq, Prod.mk.injEq] at h
      rw [← h.1, ← h.2]
      exact finds_word hd h0' hq hs

lemma zero_notMem_of_splitToken {rest' : Text} (h0 : 0 ∉ rest)
    (h : splitToken rest = some (t, rest')) : 0 ∉ rest' := by
  obtain ⟨c, tl, hd, hsuf⟩ := splitToken_suffix h
  have h0' := zero_notMem_of_dropWhile h0 hd
  exact fun hmem => h0' (List.mem_cons_of_mem c (hsuf.mem hmem))

lemma tokens_of_none (h : splitToken l = none) : tokens l = [] := by
  rw [tokens]
  split
  · rfl
  · simp_all

lemma tokens_of_some {rest : Text} (h : splitToken l = some (t, rest)) :
    tokens l = t :: tokens rest := by
  rw [tokens]
  split <;> simp_all

end Lists

/-! ## The calls for a line -/

section Calls

variable {old st : TokenState} {buf done done' rest line w : Text} {ts : List Token} {t : Token}
  {p : Option ℕ} {i n : ℕ}

/-- What `gettoken` returns for a token, and 0 at the end of the line. -/
def codeOf : Option Token → BitVec 8
  | none => 0
  | some t => t.code

/-- The call has returned the token, and its pointer points to the word. -/
def Returns (buf : Text) (r : BitVec 8 × Option ℕ) (t : Option Token) : Prop :=
  r.1 = codeOf t ∧ ∀ w, t = some (.word w) → ∃ p, r.2 = some p ∧ StringAt buf p w

/-- The calls stay in the line, and from some call on they return 0. -/
def StaysInside (old : TokenState) (line : Text) : Prop :=
  (∀ n, (lineCalls old line n).isSome) ∧
    ∃ m, ∀ n st out, lineCalls old line n = some (st, out) → ∀ r ∈ out.drop m, r.1 = 0

/-- The state before a call, when `done` has been read and the tokens `ts` have not been returned. The
first of them has been found in `done` already. -/
def Scanning (st : TokenState) (done : Text) : List Token → Prop
  | [] => st.nc = 0 ∧ st.np2 = none ∧ st.buf = done
  | t :: ts => ∃ rest, st.buf = done ++ (rest ++ [0]) ∧ st.np2 = some done.length ∧ 0 ∉ rest ∧
      QuotesClosed rest ∧ tokens rest = ts ∧ st.nc = t.code ∧ Marks done rest st.np1 t

lemma StringAt.of_prefix (h : StringAt done i w) (hp : done <+: done') : StringAt done' i w := by
  obtain ⟨hw, pre, post, rfl, hi⟩ := h
  obtain ⟨m, rfl⟩ := hp
  exact ⟨hw, pre, post ++ m, by simp only [List.append_assoc, List.cons_append], hi⟩

lemma Returns.of_prefix {r : BitVec 8 × Option ℕ} {t : Option Token} (h : Returns done r t)
    (hp : done <+: done') : Returns done' r t := by
  refine ⟨h.1, fun w hw => ?_⟩
  obtain ⟨p, hp1, hs⟩ := h.2 w hw
  exact ⟨p, hp1, hs.of_prefix hp⟩

lemma Scanning.prefix_buf (h : Scanning st done ts) : done <+: st.buf := by
  cases ts with
  | nil => exact h.2.2 ▸ List.prefix_rfl
  | cons t ts =>
    obtain ⟨rest, hbuf, -⟩ := h
    exact hbuf ▸ List.prefix_append _ _

/-- A word is ended by the null byte that follows. -/
lemma Marks.stringAt {m : Text} (h : Marks done rest p (.word w))
    (hm : Delimited rest → m.head? = some 0) :
    ∃ i, p = some i ∧ StringAt (done ++ m) i w := by
  obtain ⟨hw, pre, hp, ⟨post, rfl⟩ | ⟨rfl, hrest⟩⟩ := h
  · exact ⟨_, hp, hw, pre, post ++ m, by simp only [List.append_assoc, List.cons_append], rfl⟩
  · obtain ⟨m', rfl⟩ := List.head?_eq_some_iff.mp (hm hrest)
    exact ⟨_, hp, hw, pre, m', rfl, rfl⟩

/-- **One step of the scan**: the next token is found, or the end of the line, and the word that was
found before is ended. -/
lemma gettokenAt_scanning (done : Text) (h0 : 0 ∉ rest) (hq : QuotesClosed rest) (c : BitVec 8) : ∃ x m,
    gettokenAt (done ++ (rest ++ [0])) (some done.length) = some x ∧
      Scanning ⟨c, x.c, x.p1, x.p2, x.buf⟩ (done ++ m) (tokens rest) ∧
      (Delimited rest → m.head? = some 0) := by
  cases hq with
  | done h =>
    refine ⟨_, List.replicate (rest.takeWhile isBlank).length 0 ++ ([] ++ [0]), gettokenAt_end h, ?_,
      ?_⟩
    · rw [tokens_of_none h]
      exact ⟨rfl, rfl, List.append_assoc _ _ _⟩
    · intro _
      rw [List.nil_append, ← List.replicate_succ']
      rfl
  | token hopen h hrest =>
    obtain ⟨mid, p, heq, hmarks, hmid⟩ := gettokenAt_finds done h0 hopen h
    refine ⟨_, mid, heq, ?_, hmid⟩
    rw [tokens_of_some h]
    exact ⟨_, rfl, rfl, zero_notMem_of_splitToken h0 h, hrest, rfl, rfl, hmarks⟩

/-- **One call** returns the first token. -/
lemma Scanning.gettoken (h : Scanning st done ts) : ∃ st' m r, gettoken st none = some (st', r) ∧
    Scanning st' (done ++ m) ts.tail ∧ Returns (done ++ m) r ts.head? := by
  cases ts with
  | nil =>
    obtain ⟨hnc, hnp2, hbuf⟩ := h
    refine ⟨⟨st.nc, 0, none, none, st.buf⟩, [], (0, st.np1), ?_, ⟨rfl, rfl, ?_⟩, rfl, ?_⟩
    · rw [MosVolca.gettoken, hnp2, hnc]
      rfl
    · rw [hbuf, List.append_nil]
    · intro w hw
      exact absurd hw (by simp)
  | cons t ts =>
    obtain ⟨rest, hbuf, hnp2, h0, hq, hts, hnc, hmarks⟩ := h
    obtain ⟨x, m, hx, hscan, hm⟩ := gettokenAt_scanning done h0 hq st.nc
    refine ⟨⟨st.nc, x.c, x.p1, x.p2, x.buf⟩, m, (st.nc, st.np1), ?_, hts ▸ hscan, hnc, ?_⟩
    · rw [MosVolca.gettoken, hbuf, hnp2, hx]
      rfl
    · intro w hw
      rw [List.head?_cons, Option.some.injEq] at hw
      exact (hw ▸ hmarks).stringAt hm

lemma tokenCalls_succ {st' : TokenState} {r : BitVec 8 × Option ℕ}
    (h : gettoken st none = some (st', r)) :
    tokenCalls st (n + 1) = (tokenCalls st' n).map fun x => (x.1, r :: x.2) := by
  rw [tokenCalls, h]
  simp only [Option.bind_eq_bind, Option.bind_some, Option.pure_def]
  cases tokenCalls st' n <;> rfl

/-- **The calls return the tokens**, by induction on their number: the pointers into what has been read
stay valid while more is read. -/
lemma Scanning.tokenCalls (h : Scanning st done ts) (n : ℕ) : ∃ st' out,
    tokenCalls st n = some (st', out) ∧ out.length = n ∧ done <+: st'.buf ∧
      ∀ (k : ℕ) r, out[k]? = some r → Returns st'.buf r ts[k]? := by
  induction n generalizing st done ts with
  | zero => exact ⟨st, [], rfl, rfl, h.prefix_buf, fun k r hr => absurd hr (by simp)⟩
  | succ n ih =>
    obtain ⟨st₁, m, r₁, hcall, hscan, hret⟩ := h.gettoken
    obtain ⟨st', out, hcalls, hlen, hpre, hall⟩ := ih hscan
    refine ⟨st', r₁ :: out, ?_, ?_, (List.prefix_append _ _).trans hpre, ?_⟩
    · rw [tokenCalls_succ hcall, hcalls]
      rfl
    · rw [List.length_cons, hlen]
    · intro k r hr
      cases k with
      | zero =>
        rw [List.getElem?_cons_zero, Option.some.injEq] at hr
        rw [← hr, ← List.head?_eq_getElem?]
        exact hret.of_prefix hpre
      | succ k =>
        rw [List.getElem?_cons_succ] at hr
        rw [← List.getElem?_tail]
        exact hall k r hr

/-- The calls for a line go on from its first token. -/
lemma lineCalls_eq {x : Scan} (h : gettokenAt (line ++ [0]) (some 0) = some x) (n : ℕ) :
    lineCalls old line n = tokenCalls ⟨old.c, x.c, x.p1, x.p2, x.buf⟩ n := by
  rw [lineCalls, MosVolca.gettoken, h]
  rfl

lemma lineCalls_returns (old : TokenState) (h0 : 0 ∉ line) (hq : QuotesClosed line) (n : ℕ) : ∃ st out,
    lineCalls old line n = some (st, out) ∧ out.length = n ∧
      ∀ (k : ℕ) r, out[k]? = some r → Returns st.buf r (tokens line)[k]? := by
  obtain ⟨x, m, hx, hscan, -⟩ := gettokenAt_scanning [] h0 hq old.c
  obtain ⟨st, out, hcalls, hlen, -, hall⟩ := hscan.tokenCalls n
  exact ⟨st, out, (lineCalls_eq hx n).trans hcalls, hlen, hall⟩

/-- The pointer behind a quote that is not closed is outside the line. -/
lemma gettoken_outside (h : st.np2 = some st.buf.length) : gettoken st none = none := by
  have hskip : skipBlanks st.buf st.buf.length = none := by
    rw [skipBlanks, dif_neg (Nat.lt_irrefl _)]
  rw [MosVolca.gettoken, h, gettokenAt, hskip]
  rfl

/-- The rest of a line from which no call leaves the line, by induction on its length. -/
lemma quotesClosed_of_calls : ∀ k, ∀ (rest done : Text) (st : TokenState), rest.length = k →
    st.buf = done ++ (rest ++ [0]) → st.np2 = some done.length → 0 ∉ rest →
    (∀ n, (tokenCalls st n).isSome) → QuotesClosed rest := by
  intro k
  induction k using Nat.strong_induction_on with
  | _ k ih =>
    intro rest done st hk hbuf hnp2 h0 hcalls
    cases hsplit : splitToken rest with
    | none => exact .done hsplit
    | some x =>
      obtain ⟨t, rest'⟩ := x
      by_cases hopen : OpeningClosed rest
      · obtain ⟨mid, p, hx, -, -⟩ := gettokenAt_finds done h0 hopen hsplit
        obtain ⟨st', r, hcall, hbuf', hnp2'⟩ : ∃ st' r, gettoken st none = some (st', r) ∧
            st'.buf = done ++ mid ++ (rest' ++ [0]) ∧ st'.np2 = some (done ++ mid).length := by
          rw [MosVolca.gettoken, hbuf, hnp2, hx]
          exact ⟨_, _, rfl, rfl, rfl⟩
        refine .token hopen hsplit (ih rest'.length (hk ▸ splitToken_length hsplit) rest'
          (done ++ mid) st' rfl hbuf' hnp2' (zero_notMem_of_splitToken h0 hsplit) fun n => ?_)
        have h := hcalls (n + 1)
        rwa [tokenCalls_succ hcall, Option.isSome_map] at h
      · obtain ⟨l, hl⟩ := not_forall.mp hopen
        obtain ⟨hd, hq⟩ := Classical.not_imp.mp hl
        have h0' := zero_notMem_of_dropWhile h0 hd
        have hx := gettokenAt_unclosed done hd
          (fun hmem => h0' (List.mem_cons_of_mem quote hmem)) hq
        dsimp only at hx
        obtain ⟨st', r, hcall, hout⟩ : ∃ st' r, gettoken st none = some (st', r) ∧
            st'.np2 = some st'.buf.length := by
          rw [MosVolca.gettoken, hbuf, hnp2, hx]
          exact ⟨_, _, rfl, rfl⟩
        have h := hcalls 2
        rw [tokenCalls_succ hcall, Option.isSome_map, MosVolca.tokenCalls, gettoken_outside hout] at h
        exact absurd h (by decide)

/-- The state before `gettoken(line, 0)` as one before a call for the first token. -/
lemma quotesClosed_of_lineCalls (h0 : 0 ∉ line) (h : ∀ n, (lineCalls old line n).isSome) :
    QuotesClosed line := by
  cases hx : gettokenAt (line ++ [0]) (some 0) with
  | none =>
    have h1 := h 0
    rw [lineCalls, MosVolca.gettoken, hx] at h1
    exact absurd h1 Bool.false_ne_true
  | some x =>
    refine quotesClosed_of_calls _ line [] ⟨old.c, old.c, old.np1, some 0, line ++ [0]⟩ rfl rfl rfl h0
      fun n => ?_
    have hcall : gettoken ⟨old.c, old.c, old.np1, some 0, line ++ [0]⟩ none =
        some (⟨old.c, x.c, x.p1, x.p2, x.buf⟩, old.c, old.np1) := by
      rw [MosVolca.gettoken]
      dsimp only
      rw [hx]
      rfl
    cases n with
    | zero => rfl
    | succ n =>
      rw [tokenCalls_succ hcall, Option.isSome_map, ← lineCalls_eq hx]
      exact h n

/-- The tokens end inside of the line exactly if every quote is closed. -/
lemma staysInside_iff_quotesClosed (h0 : 0 ∉ line) :
    StaysInside old line ↔ QuotesClosed line := by
  constructor
  · exact fun h => quotesClosed_of_lineCalls h0 h.1
  · intro hq
    refine ⟨fun n => ?_, (tokens line).length, fun n st out hcalls r hr => ?_⟩
    · obtain ⟨st, out, hcalls, -⟩ := lineCalls_returns old h0 hq n
      rw [hcalls]
      rfl
    · obtain ⟨st', out', hcalls', -, hall⟩ := lineCalls_returns old h0 hq n
      rw [hcalls', Option.some.injEq, Prod.mk.injEq] at hcalls
      obtain ⟨k, hk⟩ := List.mem_iff_getElem?.mp hr
      rw [List.getElem?_drop, ← hcalls.2] at hk
      have hret := (hall _ r hk).1
      rwa [List.getElem?_eq_none (by omega)] at hret

end Calls

/-- **When the calls stay in the line**: exactly for the lines whose quotes are closed. -/
theorem gettoken_staysInside_iff (old : TokenState) (line : Text) (h0 : 0 ∉ line) :
    StaysInside old line ↔ QuotesClosed line :=
  staysInside_iff_quotesClosed h0

/-- The static variables before the first line. -/
def noLine : TokenState := ⟨0, 0, none, none, []⟩

/-- The line `a "b c"|d`. -/
def quotedLine : Text := [0x61, 0x20, 0x22, 0x62, 0x20, 0x63, 0x22, 0x7c, 0x64]

lemma openingClosed_iff {l : Text} : OpeningClosed l ↔
    ((l.dropWhile isBlank).head? = some quote → quote ∈ (l.dropWhile isBlank).tail) := by
  unfold OpeningClosed
  cases l.dropWhile isBlank with
  | nil => simp
  | cons c tl => simp

lemma quotedLine_closed : QuotesClosed quotedLine := by
  refine .token (openingClosed_iff.mpr (by decide)) rfl ?_
  refine .token (openingClosed_iff.mpr (by decide)) rfl ?_
  refine .token (openingClosed_iff.mpr (by decide)) rfl ?_
  exact .token (openingClosed_iff.mpr (by decide)) rfl (.done rfl)

/-- For a line with a string in quotes. -/
theorem gettoken_staysInside_quotedLine : StaysInside noLine quotedLine :=
  (gettoken_staysInside_iff noLine quotedLine (by decide)).mpr quotedLine_closed

/-- **A quote that is not closed**: the line is a double quote, and the second call reads the byte
behind its null byte. -/
theorem not_gettoken_staysInside :
    ¬ ∀ (old : TokenState) (line : Text), 0 ∉ line → StaysInside old line := by
  intro hall
  have hline : (0 : BitVec 8) ∉ [quote] := by decide
  have hclosed := (staysInside_iff_quotesClosed hline).mp (hall noLine [quote] hline)
  cases hclosed with
  | done h => exact absurd (splitToken_eq_none_iff.mp h) (by decide)
  | token hopen _ _ => exact absurd (hopen [] rfl) List.not_mem_nil

/-- **The calls return the tokens of the line**, 0 after the last one, and the pointers to the words
that they have returned stay valid. -/
theorem gettoken_returns_tokens (old : TokenState) (line : Text) (h0 : 0 ∉ line)
    (hq : QuotesClosed line) (n : ℕ) : ∃ st out, lineCalls old line n = some (st, out) ∧
      out.length = n ∧ ∀ (k : ℕ) r, out[k]? = some r → Returns st.buf r (tokens line)[k]? :=
  lineCalls_returns old h0 hq n

example : tokens quotedLine = [.word [0x61], .word [0x62, 0x20, 0x63], .bar, .word [0x64]] := by
  rw [tokens_of_some rfl, tokens_of_some rfl, tokens_of_some rfl, tokens_of_some rfl,
    tokens_of_none rfl]
  rfl

/-- Five calls on a line with a string in quotes. -/
theorem gettoken_returns_tokens_quotedLine : ∃ st out, lineCalls noLine quotedLine 5 = some (st, out) ∧
    out.length = 5 ∧
      ∀ (k : ℕ) r, out[k]? = some r → Returns st.buf r (tokens quotedLine)[k]? :=
  gettoken_returns_tokens noLine quotedLine (by decide) quotedLine_closed 5

end MosVolca
