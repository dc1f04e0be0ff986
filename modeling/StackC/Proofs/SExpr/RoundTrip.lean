import StackC.Proofs.Outcome
import StackC.Proofs.Text.Plain
import StackC.SExpr.Read

/-! An s-expression is read back from its text, if every atom in it is. -/
namespace StackC.SExpr

/-- What follows does not belong to a symbol or an integer before it. -/
def Breaks (rest : Bytes) : Prop := ∀ b ∈ rest.head?, isSymbolByte b = false

/-- The word is read from the text, whatever follows. -/
def Word.Spelled (w : Word) (t : Bytes) : Prop :=
  ∀ pos rest, Breaks rest → ∃ pos', words pos (t ++ rest) = .cons pos w (words pos' rest)

/-- The atoms of a datum are words that are read from their own texts. -/
inductive Readable (printable : Nat → Bool) : Node → Prop
  | atom {n : Node} {w : Word} (isAtom : w.atom? = some n)
      (spelled : w.Spelled (n.printBy printable)) : Readable printable n
  | list {items : List Node} (inner : ∀ n ∈ items, Readable printable n) :
      Readable printable (.list items)

section Words

variable {b : UInt8} {rest : Bytes} {pos : Nat}

theorem words_space (h : isSpace b) : words pos (b :: rest) = words (pos + 1) rest := by
  rw [words, if_pos h]

private theorem words_blank (h : ∀ b ∈ rest, isSpace b) (pos : Nat) :
    ∃ pos', words pos rest = .stop pos' := by
  induction rest generalizing pos with
  | nil => exact ⟨pos, by rw [words]⟩
  | cons b rest ih =>
    rw [List.forall_mem_cons] at h
    rw [words_space h.1]
    exact ih h.2 (pos + 1)

/-- A word begins where no blank and no comment does. -/
theorem words_word {w : Word} {n : Nat} (hs : isSpace b = false) (hc : (b == byte ';') = false)
    (hw : word pos b rest = .ok (w, n)) :
    words pos (b :: rest) = .cons pos w (words (pos + n + 1) (rest.drop n)) := by
  rw [words, if_neg (by simp [hs]), if_neg (by simp [hc]), hw]

theorem words_opening : words pos (byte '(' :: rest) = .cons pos .opening (words (pos + 1) rest) :=
  words_word (b := byte '(') (by decide) (by decide) rfl

theorem words_closing : words pos (byte ')' :: rest) = .cons pos .closing (words (pos + 1) rest) :=
  words_word (b := byte ')') (by decide) (by decide) rfl

end Words

section Atoms

/-- A byte of a symbol is none of those that stand for themselves. -/
theorem ne_of_isSymbolByte {b : UInt8} (h : isSymbolByte b) :
    isSpace b = false ∧ (b == byte ';') = false ∧ (b == byte '(') = false ∧
      (b == byte ')') = false ∧ (b == Text.quoteMark) = false := by
  simp only [isSymbolByte, Bool.and_eq_true, bne_iff_ne, ne_eq, Bool.not_eq_true'] at h
  obtain ⟨⟨⟨⟨⟨-, ho⟩, hc⟩, hq⟩, hs⟩, hb⟩ := h
  exact ⟨hb, beq_false_of_ne hs, beq_false_of_ne ho, beq_false_of_ne hc, beq_false_of_ne hq⟩

theorem isSymbolByte_of_isDigit {b : UInt8} (h : Text.isDigit b) : isSymbolByte b := by
  have hd : ∀ b, Text.isDigit b → isSymbolByte b := forall_byte (by decide +kernel)
  exact hd b h

theorem takeWhile_breaks {p : UInt8 → Bool} {t rest : Bytes} (ht : ∀ b ∈ t, p b)
    (hr : Breaks rest) (hp : ∀ b, p b → isSymbolByte b) : (t ++ rest).takeWhile p = t := by
  rw [List.takeWhile_append_of_pos ht]
  cases rest with
  | nil => simp
  | cons b rest =>
    have hb : p b = false := by
      cases hpb : p b with
      | false => rfl
      | true => exact absurd (hp b hpb) (by simp [hr b rfl])
    simp [hb]

/-- A symbol that is neither a number nor begins like an ellipsis. -/
theorem spelled_symbol_of_noNumber {b : UInt8} {t : Bytes} (hb : isSymbolByte b)
    (ht : ∀ c ∈ t, isSymbolByte c) (hdot : (b == byte '.') = false) (hnum : Text.isDigit b = false)
    (hsign : isSign b → ∀ d ∈ t.head?, Text.isDigit d = false) :
    (Word.symbol (b :: t)).Spelled (b :: t) := by
  intro pos rest hr
  obtain ⟨hs, hc, ho, hcl, hq⟩ := ne_of_isSymbolByte hb
  have hnext : (isSign b && (t ++ rest).head?.any Text.isDigit) = false := by
    rw [Bool.and_eq_false_imp]
    intro hb
    cases t with
    | cons d t => exact hsign hb d rfl
    | nil =>
      cases rest with
      | nil => rfl
      | cons d rest =>
        -- A digit would belong to the symbol.
        have hd := hr d rfl
        exact Bool.eq_false_iff.mpr fun hdigit =>
          Bool.false_ne_true (hd.symm.trans (isSymbolByte_of_isDigit hdigit))
  have hw : word pos b (t ++ rest) = .ok (.symbol (b :: t), t.length) := by
    unfold word
    simp only [ho, hcl, hq, hdot, hnum, hnext, hb, Bool.or_self, Bool.false_eq_true, if_false,
      if_true, takeWhile_breaks ht hr fun _ h => h]
  rw [List.cons_append, words_word hs hc hw, List.drop_left]
  exact ⟨_, rfl⟩

/-- A symbol that does not look like a number or an ellipsis. -/
theorem spelled_symbol {b : UInt8} {t : Bytes} (hb : isSymbolByte b) (ht : ∀ c ∈ t, isSymbolByte c)
    (hdot : (b == byte '.') = false) (hnum : Text.isDigit b = false) (hsign : isSign b = false) :
    (Word.symbol (b :: t)).Spelled (b :: t) :=
  spelled_symbol_of_noNumber hb ht hdot hnum (by simp [hsign])

theorem spelled_ellipsis : Word.ellipsis.Spelled (ascii "...") := by
  intro pos rest _
  have hw : word pos (byte '.') (ascii ".." ++ rest) = .ok (.ellipsis, 2) := rfl
  exact ⟨_, words_word (by decide) (by decide) hw⟩

/-- An integer, with a sign or without. -/
theorem spelled_integer {b : UInt8} {t : Bytes} (hb : Text.isDigit b ∨ (isSign b ∧ t ≠ []))
    (ht : ∀ c ∈ t, Text.isDigit c) : (Word.integer (b :: t)).Spelled (b :: t) := by
  intro pos rest hr
  have hd : ∀ b, Text.isDigit b ∨ isSign b → isSymbolByte b ∧ (b == byte '.') = false :=
    forall_byte (by decide +kernel)
  obtain ⟨hsb, hdot⟩ := hd b (hb.imp_right And.left)
  obtain ⟨hs, hc, ho, hcl, hq⟩ := ne_of_isSymbolByte hsb
  have hn : (Text.isDigit b || (isSign b && (t ++ rest).head?.any Text.isDigit)) = true := by
    rcases hb with hb | ⟨hb, hne⟩
    · simp [hb]
    · obtain ⟨d, t, rfl⟩ := List.exists_cons_of_ne_nil hne
      simp [hb, ht d List.mem_cons_self]
  have hw : word pos b (t ++ rest) = .ok (.integer (b :: t), t.length) := by
    unfold word
    simp only [ho, hcl, hq, hdot, hn, Bool.false_eq_true, if_false, if_true,
      takeWhile_breaks ht hr fun _ => isSymbolByte_of_isDigit]
  rw [List.cons_append, words_word hs hc hw, List.drop_left]
  exact ⟨_, rfl⟩

end Atoms

section Strings

variable {printable : Nat → Bool} {start pos : Nat} {t rest : Bytes} {b e : UInt8}

private theorem readString_cons (hq : b ≠ Text.quoteMark) (hb : b ≠ Text.backslash) :
    readString start pos (b :: rest) =
      (readString start (pos + 1) rest).map fun r => (b :: r.1, r.2 + 1) := by
  rw [readString.eq_def]
  simp only [beq_iff_eq, hq, hb, if_false]
  cases readString start (pos + 1) rest <;> rfl

private theorem readString_escape (he : e = Text.quoteMark ∨ e = Text.backslash) :
    readString start pos (Text.backslash :: e :: rest) =
      (readString start (pos + 2) rest).map fun r => (e :: r.1, r.2 + 2) := by
  rw [readString.eq_def]
  have hq : (Text.backslash == Text.quoteMark) = false := by decide
  simp only [hq, beq_self_eq_true, beq_iff_eq, Bool.or_eq_true, he, Bool.false_eq_true, if_false,
    if_true]
  cases readString start (pos + 2) rest <;> rfl

theorem readString_badEscape (hq : e ≠ Text.quoteMark) (hb : e ≠ Text.backslash) :
    readString start pos (Text.backslash :: e :: rest) =
      .error { fault := .badEscape e, offset := pos } := by
  rw [readString.eq_def]
  have hq' : (Text.backslash == Text.quoteMark) = false := by decide
  simp [hq', hq, hb]

/-- Escaped bytes are read as the bytes. -/
theorem readString_escaped (t rest : Bytes) (pos : Nat) :
    readString start pos (t.flatMap Text.escaped ++ rest) =
      (readString start (pos + (t.flatMap Text.escaped).length) rest).map fun r =>
        (t ++ r.1, r.2 + (t.flatMap Text.escaped).length) := by
  induction t generalizing pos with
  | nil => cases h : readString start pos rest <;> simp [h, Except.map]
  | cons b t ih =>
    have step {k : Nat} {u : Bytes}
        (h : ∀ pos rest, readString start pos (u ++ rest) =
          (readString start (pos + k) rest).map fun r => (b :: r.1, r.2 + k))
        (hu : u.length = k) (he : Text.escaped b = u) :
        readString start pos ((b :: t).flatMap Text.escaped ++ rest) =
          (readString start (pos + ((b :: t).flatMap Text.escaped).length) rest).map fun r =>
            (b :: t ++ r.1, r.2 + ((b :: t).flatMap Text.escaped).length) := by
      rw [List.flatMap_cons, he, List.append_assoc, h, ih, List.length_append, hu, Nat.add_assoc]
      cases readString start _ rest with
      | error e => rfl
      | ok r => simp [Except.map, Nat.add_assoc, Nat.add_comm k]
    by_cases hb : b = Text.quoteMark ∨ b = Text.backslash
    · exact step (u := [Text.backslash, b]) (fun _ _ => readString_escape hb) rfl (if_pos hb)
    · refine step (u := [b]) (fun _ _ => ?_) rfl (if_neg hb)
      rw [not_or] at hb
      exact readString_cons hb.1 hb.2

theorem word_quote {r : Except ReadError (Bytes × Nat)}
    (h : readString pos (pos + 1) rest = r) :
    word pos Text.quoteMark rest = r.map fun r => (.string r.1, r.2) := by
  unfold word
  rw [if_neg (by decide), if_neg (by decide), if_pos (by decide), h]
  cases r <;> rfl

/-- A string whose text is printable. -/
theorem spelled_quote (h : Text.Printable printable t) :
    (Word.string t).Spelled (Text.quoteBy printable t) := by
  intro pos rest hr
  have hs : readString pos (pos + 1) (t.flatMap Text.escaped ++ Text.quoteMark :: rest) =
      .ok (t, 1 + (t.flatMap Text.escaped).length) := by
    rw [readString_escaped, readString.eq_def]
    simp [Except.map]
  have hd : (t.flatMap Text.escaped ++ Text.quoteMark :: rest).drop
      (1 + (t.flatMap Text.escaped).length) = rest := by
    rw [Nat.add_comm, ← List.drop_drop, List.drop_left]
    rfl
  rw [h.quote_eq, List.cons_append, List.append_assoc, List.singleton_append,
    words_word (by decide) (by decide) (word_quote hs), hd]
  exact ⟨_, rfl⟩

/-- A string whose text stands between the quotes as it is. -/
theorem spelled_string (ht : ∀ b ∈ t, Text.isPlain b) :
    (Word.string t).Spelled (Text.quoteBy Text.isPrintable t) :=
  spelled_quote (Text.printable_of_isPlain ht)

end Strings

section Data

variable {printable : Nat → Bool} {n : Node} {items : List Node} {rest : Bytes} {pos : Nat}

theorem print_list (items : List Node) : (Node.list items).printBy printable =
    byte '(' :: (Node.printItems printable items ++ [byte ')']) := by
  rw [Node.list, Node.printBy]
  rfl

theorem printItems_cons_cons (n n' : Node) (items : List Node) (rest : Bytes) :
    Node.printItems printable (n :: n' :: items) ++ rest =
      n.printBy printable ++ byte ' ' :: (Node.printItems printable (n' :: items) ++ rest) := by
  rw [Node.printItems, List.append_assoc, List.append_assoc]
  · rfl
  · exact List.cons_ne_nil n' items

section Steps

variable {w : Word} {ws : Words} {outer : List (List Node)}

theorem assemble_atom (h : w.atom? = some n) :
    assemble (items :: outer) (.cons pos w ws) = assemble ((n :: items) :: outer) ws := by
  cases w <;> cases h <;> rfl

theorem assemble_only_atom (h : w.atom? = some n) :
    assemble [] (.cons pos w ws) = atEnd n ws := by
  cases w <;> cases h <;> rfl

theorem assemble_opening : assemble outer (.cons pos .opening ws) = assemble ([] :: outer) ws := by
  cases outer <;> rfl

theorem assemble_closing {inner : List Node} :
    assemble (inner :: items :: outer) (.cons pos .closing ws) =
      assemble ((.list inner.reverse :: items) :: outer) ws := rfl

theorem assemble_last_closing {inner : List Node} :
    assemble [inner] (.cons pos .closing ws) = atEnd (.list inner.reverse) ws := rfl

theorem eq_of_atEnd {m : Node} (h : atEnd n ws = .ok m) : m = n := by
  cases ws <;> cases h
  rfl

/-- What holds of every word up to the end or to a fault. -/
def Words.All (P : Word → Prop) : Words → Prop
  | .stop _ | .fault _ => True
  | .cons _ w rest => P w ∧ rest.All P

/-- What holds of atoms and is kept by lists holds of what is read, if it holds of all that was read
before. -/
theorem of_assemble {P : Node → Prop} (hlist : ∀ items, (∀ m ∈ items, P m) → P (.list items))
    (hws : ws.All fun w => ∀ m, w.atom? = some m → P m)
    (hs : ∀ items ∈ outer, ∀ m ∈ items, P m) (h : assemble outer ws = .ok n) : P n := by
  have closed {items : List Node} (hi : ∀ m ∈ items, P m) : P (.list items.reverse) :=
    hlist _ fun m hm => hi m (List.mem_reverse.mp hm)
  induction ws generalizing outer with
  | stop => cases h
  | fault => cases h
  | cons pos w ws ih =>
    cases ha : w.atom? with
    | some m =>
      have hm := hws.1 m ha
      cases outer with
      | nil =>
        rw [assemble_only_atom ha] at h
        exact eq_of_atEnd h ▸ hm
      | cons items outer =>
        rw [List.forall_mem_cons] at hs
        rw [assemble_atom ha] at h
        refine ih hws.2 ?_ h
        exact List.forall_mem_cons.mpr ⟨List.forall_mem_cons.mpr ⟨hm, hs.1⟩, hs.2⟩
    | none =>
      cases w with
      | symbol | string | integer | ellipsis => cases ha
      | opening =>
        rw [assemble_opening] at h
        exact ih hws.2 (List.forall_mem_cons.mpr ⟨by simp, hs⟩) h
      | closing =>
        match outer with
        | [] => cases h
        | [items] =>
          rw [assemble_last_closing] at h
          exact eq_of_atEnd h ▸ closed (hs items List.mem_cons_self)
        | inner :: items :: outer =>
          rw [assemble_closing] at h
          rw [List.forall_mem_cons, List.forall_mem_cons] at hs
          refine ih hws.2 ?_ h
          exact List.forall_mem_cons.mpr
            ⟨List.forall_mem_cons.mpr ⟨closed hs.1, hs.2.1⟩, hs.2.2⟩

end Steps

/-- A datum inside an open list becomes its next item. -/
def Joins (printable : Nat → Bool) (n : Node) : Prop :=
  ∀ pos rest items outer, Breaks rest → ∃ pos',
    assemble (items :: outer) (words pos (n.printBy printable ++ rest)) =
      assemble ((n :: items) :: outer) (words pos' rest)

private theorem breaks_closing (rest : Bytes) : Breaks (byte ')' :: rest) := by
  rintro b ⟨⟩
  decide

theorem breaks_space (rest : Bytes) : Breaks (byte ' ' :: rest) := by
  rintro b ⟨⟩
  decide

/-- The items of a list, up to its closing parenthesis. -/
theorem assemble_items (h : ∀ n ∈ items, Joins printable n) (pos : Nat) (rest : Bytes)
    (seen : List Node) (outer : List (List Node)) : ∃ pos',
    assemble (seen :: outer) (words pos (Node.printItems printable items ++ byte ')' :: rest)) =
      assemble ((items.reverse ++ seen) :: outer) (words pos' (byte ')' :: rest)) := by
  induction items generalizing pos seen with
  | nil => exact ⟨pos, rfl⟩
  | cons n items ih =>
    rw [List.forall_mem_cons] at h
    cases items with
    | nil =>
      rw [Node.printItems]
      exact h.1 pos _ seen outer (breaks_closing rest)
    | cons n' items =>
      obtain ⟨pos₁, h₁⟩ := h.1 pos _ seen outer (breaks_space _)
      obtain ⟨pos₂, h₂⟩ := ih h.2 (pos₁ + 1) (n :: seen)
      refine ⟨pos₂, ?_⟩
      rw [printItems_cons_cons, h₁, words_space (by decide), h₂]
      simp only [List.reverse_cons, List.append_assoc, List.cons_append, List.nil_append]

theorem joins_of_readable (h : Readable printable n) : Joins printable n := by
  induction h with
  | atom isAtom spelled =>
    intro pos rest items outer hr
    obtain ⟨pos', hw⟩ := spelled pos rest hr
    rw [hw, assemble_atom isAtom]
    exact ⟨pos', rfl⟩
  | @list inner _ ih =>
    intro pos rest items outer hr
    obtain ⟨pos₁, h₁⟩ := assemble_items ih (pos + 1) rest [] (items :: outer)
    rw [print_list, List.cons_append, List.append_assoc, List.singleton_append, words_opening,
      assemble_opening, h₁, words_closing, assemble_closing, List.append_nil, List.reverse_reverse]
    exact ⟨pos₁ + 1, rfl⟩

/-- The text of a readable datum is read as that datum. -/
theorem read_print (h : Readable printable n) (hr : ∀ b ∈ rest, isSpace b) :
    read (n.printBy printable ++ rest) = .ok n := by
  have hb : Breaks rest := by
    intro b hb
    have hs := hr b (List.mem_of_mem_head? hb)
    simp [isSymbolByte, hs]
  have atEnd_blank (n : Node) (pos : Nat) : atEnd n (words pos rest) = .ok n := by
    obtain ⟨pos', hw⟩ := words_blank hr pos
    rw [hw, atEnd]
  unfold read
  cases h with
  | atom isAtom spelled =>
    obtain ⟨pos', hw⟩ := spelled 0 rest hb
    rw [hw, assemble_only_atom isAtom, atEnd_blank]
  | @list items inner =>
    obtain ⟨pos₁, h₁⟩ := assemble_items (fun n hn => joins_of_readable (inner n hn)) 1 rest [] []
    rw [print_list, List.cons_append, List.append_assoc, List.singleton_append, words_opening,
      assemble_opening, h₁, words_closing, assemble_last_closing, atEnd_blank, List.append_nil,
      List.reverse_reverse]

end Data

end StackC.SExpr
