import StackC.Proofs.SExpr.RoundTrip

/-! Which data that were read are read again from their own text. -/
namespace StackC.SExpr

/-- The text of a string in a datum. -/
inductive Node.HasString (t : Bytes) : Node → Prop
  | atom : HasString t (.string t)
  | item {n : Node} {items : List Node} (mem : n ∈ items) (inner : HasString t n) :
      HasString t (.list items)

/-- A string whose text is not printable has an escape that is not read. -/
theorem words_quote {printable : Nat → Bool} {t : Bytes} (hp : Text.ShowsEscaped printable)
    (h : ¬Text.Printable printable t) (pos : Nat) (rest : Bytes) : ∃ e offset,
    words pos (Text.quoteBy printable t ++ rest) = .fault { fault := .badEscape e, offset } := by
  obtain ⟨front, -, e, more, -, hquote, hq, hb⟩ := Text.quote_of_not_printable hp h
  refine ⟨e, pos + 1 + (front.flatMap Text.escaped).length, ?_⟩
  have hs := @readString_escaped pos front (Text.backslash :: e :: (more ++ rest)) (pos + 1)
  rw [readString_badEscape hq hb] at hs
  rw [hquote, List.cons_append, List.append_assoc, List.cons_append, List.cons_append, words,
    if_neg (by decide), if_neg (by decide), word_quote hs]
  rfl

/-- The words that can stand in a text. -/
inductive Word.Lexical : Word → Prop
  | symbol {b : UInt8} {t : Bytes} (head : isSymbolByte b) (tail : ∀ c ∈ t, isSymbolByte c)
      (noDot : (b == byte '.') = false) (noDigit : Text.isDigit b = false)
      (noNumber : isSign b → ∀ d ∈ t.head?, Text.isDigit d = false) : Lexical (.symbol (b :: t))
  | integer {b : UInt8} {t : Bytes} (head : Text.isDigit b ∨ (isSign b ∧ t ≠ []))
      (tail : ∀ c ∈ t, Text.isDigit c) : Lexical (.integer (b :: t))
  | string {t : Bytes} : Lexical (.string t)
  | ellipsis : Lexical .ellipsis
  | opening : Lexical .opening
  | closing : Lexical .closing

section Lexical

variable {w : Word} {n : Node}

private theorem lexical_of_word {pos k : Nat} {b : UInt8} {rest : Bytes}
    (h : word pos b rest = .ok (w, k)) : w.Lexical := by
  have all_takeWhile {p : UInt8 → Bool} : ∀ c ∈ rest.takeWhile p, p c := fun c hc =>
    List.all_eq_true.mp List.all_takeWhile c hc
  unfold word at h
  split at h
  · cases h
    exact .opening
  split at h
  · cases h
    exact .closing
  split at h
  · obtain ⟨r, -, h⟩ := Outcome.bind_eq_ok.mp h
    cases h
    exact .string
  split at h
  · split at h
    · cases h
      exact .ellipsis
    · cases h
  next hdot =>
  split at h
  · next hn =>
    cases h
    refine .integer ?_ all_takeWhile
    rw [Bool.or_eq_true, Bool.and_eq_true] at hn
    refine hn.imp_right (And.imp_right fun hd => ?_)
    cases rest with
    | nil => cases hd
    | cons d rest =>
      have hd' : Text.isDigit d := hd
      simp [hd']
  next hn =>
  split at h
  · next hb =>
    cases h
    simp only [Bool.or_eq_true, Bool.and_eq_true, not_or, not_and, Bool.not_eq_true] at hn hdot
    refine .symbol hb all_takeWhile hdot hn.1 fun hs d hd => ?_
    cases rest with
    | nil => cases hd
    | cons c rest =>
      by_cases hc : isSymbolByte c
      · rw [List.takeWhile_cons_of_pos hc] at hd
        cases hd
        exact hn.2 hs
      · rw [List.takeWhile_cons_of_neg hc] at hd
        cases hd
  · cases h

private theorem lexical_words (pos : Nat) (t : Bytes) : (words pos t).All Word.Lexical := by
  fun_induction words pos t with
  | case1 => trivial
  | case2 pos b rest hs ih => exact ih
  | case3 pos b rest hs hc comment ih => exact ih
  | case4 => trivial
  | case5 pos b rest hs hc w n hw ih => exact ⟨lexical_of_word hw, ih⟩

end Lexical

/-- A datum whose atoms are words that can stand in a text. -/
inductive Written : Node → Prop
  | atom {n : Node} {w : Word} (isAtom : w.atom? = some n) (lexical : w.Lexical) : Written n
  | list {items : List Node} (inner : ∀ n ∈ items, Written n) : Written (.list items)

def Node.Legible (printable : Nat → Bool) (n : Node) : Prop :=
  ∀ t, n.HasString t → Text.Printable printable t

/-- The text of a datum has an escape that is not read, wherever it stands. -/
def Spoils (printable : Nat → Bool) (n : Node) : Prop :=
  ∀ pos rest outer, ∃ e offset, assemble outer (words pos (n.printBy printable ++ rest)) =
    .error { fault := .badEscape e, offset }

section Written

variable {printable : Nat → Bool} {n : Node} {items : List Node}

private theorem written_of_read {t : Bytes} (h : read t = .ok n) : Written n := by
  have atoms {ws : Words} (hws : ws.All Word.Lexical) :
      ws.All fun w => ∀ m, w.atom? = some m → Written m := by
    induction ws with
    | stop | fault => trivial
    | cons pos w rest ih => exact ⟨fun m hm => .atom hm hws.1, ih hws.2⟩
  exact of_assemble (fun _ => .list) (atoms (lexical_words 0 t)) (by simp) h

theorem Word.Lexical.spelled {w : Word} (h : w.Lexical) (hn : w.atom? = some n)
    (hs : n.Legible printable) : w.Spelled (n.printBy printable) := by
  cases h with
  | symbol head tail noDot noDigit noNumber =>
    cases hn
    exact spelled_symbol_of_noNumber head tail noDot noDigit noNumber
  | integer head tail =>
    cases hn
    exact spelled_integer head tail
  | string =>
    cases hn
    exact spelled_quote (hs _ .atom)
  | ellipsis =>
    cases hn
    exact spelled_ellipsis
  | opening | closing => cases hn

theorem readable_of_legible (h : Written n) (hs : n.Legible printable) : Readable printable n := by
  induction h with
  | atom isAtom lexical => exact .atom isAtom (lexical.spelled isAtom hs)
  | list inner ih => exact .list fun m hm => ih m hm fun t ht => hs t (.item hm ht)

/-- The items before the first one that is not read are read. -/
theorem assemble_items_spoils (h : ∀ n ∈ items, Joins printable n ∨ Spoils printable n)
    (hs : ∃ n ∈ items, Spoils printable n) (pos : Nat) (rest : Bytes) (seen : List Node)
    (outer : List (List Node)) : ∃ e offset,
    assemble (seen :: outer) (words pos (Node.printItems printable items ++ rest)) =
      .error { fault := .badEscape e, offset } := by
  induction items generalizing pos seen with
  | nil => simp at hs
  | cons n items ih =>
    rw [List.forall_mem_cons] at h
    cases items with
    | nil =>
      obtain ⟨m, hm, hspoils⟩ := hs
      rw [List.mem_singleton.mp hm] at hspoils
      rw [Node.printItems]
      exact hspoils pos rest (seen :: outer)
    | cons n' items =>
      rw [printItems_cons_cons]
      rcases h.1 with hjoins | hspoils
      · by_cases hfirst : Spoils printable n
        · exact hfirst pos _ (seen :: outer)
        have hrest : ∃ m ∈ n' :: items, Spoils printable m := by
          obtain ⟨m, hm, hspoils⟩ := hs
          rcases List.mem_cons.mp hm with rfl | hm
          · exact absurd hspoils hfirst
          · exact ⟨m, hm, hspoils⟩
        obtain ⟨pos', hstep⟩ := hjoins pos _ seen outer (breaks_space _)
        rw [hstep, words_space (by decide)]
        exact ih h.2 hrest (pos' + 1) (n :: seen)
      · exact hspoils pos _ (seen :: outer)

private theorem spoils_of_not_legible (hp : Text.ShowsEscaped printable) (h : Written n)
    (hs : ¬n.Legible printable) : Spoils printable n := by
  induction h with
  | @atom n w isAtom lexical =>
    intro pos rest outer
    cases w with
    | string t =>
      cases isAtom
      have ht : ¬Text.Printable printable t := by
        intro ht
        refine hs fun u hu => ?_
        cases hu
        exact ht
      obtain ⟨e, offset, hw⟩ := words_quote hp ht pos rest
      refine ⟨e, offset, ?_⟩
      rw [Node.string, Node.printBy, hw, assemble]
    | _ =>
      refine absurd (fun t ht => ?_) hs
      cases isAtom <;> cases ht
  | @list items inner ih =>
    have hall : ∀ m ∈ items, Joins printable m ∨ Spoils printable m := by
      intro m hm
      by_cases hl : m.Legible printable
      · exact .inl (joins_of_readable (readable_of_legible (inner m hm) hl))
      · exact .inr (ih m hm hl)
    have hsome : ∃ m ∈ items, Spoils printable m := by
      by_contra hnone
      refine hs fun t ht => ?_
      cases ht with
      | @item m _ mem hasString =>
        by_cases hl : m.Legible printable
        · exact hl t hasString
        · exact absurd ⟨m, mem, ih m mem hl⟩ hnone
    intro pos rest outer
    rw [print_list, List.cons_append, List.append_assoc, words_opening, assemble_opening]
    exact assemble_items_spoils hall hsome (pos + 1) _ [] outer

end Written

/-- A datum that was read is read again from its own text if and only if the text of every string in
it is the UTF-8 of printable characters, which is to say that quoting it uses no escapes but those
of the quote and the backslash. Otherwise an escape is not read. This is so whatever else is
printable. -/
theorem read_print_iff {printable : Nat → Bool} (hp : Text.ShowsEscaped printable) {src : Bytes}
    {n : Node} (h : read src = .ok n) :
    (read (n.printBy printable) = .ok n ↔ ∀ t, n.HasString t → Text.Printable printable t) ∧
      ((∃ t, n.HasString t ∧ ¬Text.Printable printable t) → ∃ e offset,
        read (n.printBy printable) = .error { fault := .badEscape e, offset } ∧
        ReadError.message { fault := .badEscape e, offset } =
          ascii "offset " ++ Text.decimalNat offset ++ ascii ": invalid escape sequence: \\" ++
            Text.encode e.toNat) ∧
      ∀ t, Text.Printable printable t ↔ Text.quoteBy printable t =
        Text.quoteMark :: (t.flatMap Text.escaped ++ [Text.quoteMark]) := by
  have hw := written_of_read h
  have spoiled (hs : ¬n.Legible printable) :
      ∃ e offset, read (n.printBy printable) = .error { fault := .badEscape e, offset } := by
    have hspoils := spoils_of_not_legible hp hw hs 0 [] []
    rwa [List.append_nil] at hspoils
  refine ⟨⟨fun hr => ?_, fun hs => ?_⟩, ?_, fun t => Text.printable_iff_quote_eq hp⟩
  · by_contra hs
    obtain ⟨e, offset, he⟩ := spoiled hs
    rw [hr] at he
    cases he
  · have hr : read (n.printBy printable ++ []) = .ok n :=
      read_print (readable_of_legible hw hs) (by simp)
    rwa [List.append_nil] at hr
  · rintro ⟨t, ht, hunprintable⟩
    obtain ⟨e, offset, he⟩ := spoiled fun hs => hunprintable (hs t ht)
    refine ⟨e, offset, he, ?_⟩
    simp only [ReadError.message, ReadFault.message, List.append_assoc]
    rfl

/-- A symbol that begins with a sign, a string of two characters and two words without a blank
between them. -/
def accented : Node :=
  .list [.symbol (ascii "-."), .string [0xC3, 0xA9, Text.quoteMark], .integer (ascii "12"),
    .symbol (ascii "a")]

def tabbed : Node := .list [.string (ascii "\t")]

theorem read_print_iff_strings :
    read (ascii "(-. \"" ++ [0xC3, 0xA9] ++ ascii "\\\"\"12a)") = .ok accented ∧
      read accented.print = .ok accented ∧
      read (ascii "(\"\t\")") = .ok tabbed ∧
      ∃ e offset, read tabbed.print = .error { fault := .badEscape e, offset } := by
  have haccented : read (ascii "(-. \"" ++ [0xC3, 0xA9] ++ ascii "\\\"\"12a)") = .ok accented := by
    have hbytes : ascii "(-. \"" ++ [0xC3, 0xA9] ++ ascii "\\\"\"12a)" =
        [40, 45, 46, 32, 34, 0xC3, 0xA9, 92, 34, 34, 49, 50, 97, 41] := by decide
    rw [hbytes]
    simp +decide [read, words, word, readString, assemble, Word.atom?, atEnd]
    rfl
  have htabbed : read (ascii "(\"\t\")") = .ok tabbed := by with_unfolding_all rfl
  have hp : Text.ShowsEscaped Text.isPrintable := ⟨by decide +kernel, by decide +kernel⟩
  have hstrings : ∀ t, accented.HasString t → Text.Printable Text.isPrintable t := by
    rintro t (_ | ⟨mem, inner⟩)
    simp only [List.mem_cons, List.not_mem_nil, or_false] at mem
    rcases mem with rfl | rfl | rfl | rfl <;> cases inner
    have hletter : Text.isPrintable 'é'.toNat := by decide +kernel
    exact ⟨['é', '"'], rfl,
      List.forall_mem_cons.mpr ⟨hletter, List.forall_mem_singleton.mpr hp.quoteMark⟩⟩
  have htab : ¬Text.Printable Text.isPrintable (ascii "\t") := by
    have hquote : Text.quoteBy Text.isPrintable (ascii "\t") = ascii "\"\\t\"" := by
      decide +kernel
    rw [Text.printable_iff_quote_eq hp, hquote]
    decide
  obtain ⟨e, offset, he, -⟩ :=
    (read_print_iff hp htabbed).2.1 ⟨_, .item List.mem_cons_self .atom, htab⟩
  exact ⟨haccented, (read_print_iff hp haccented).1.mpr hstrings, htabbed, e, offset, he⟩

end StackC.SExpr
