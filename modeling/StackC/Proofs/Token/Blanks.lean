import StackC.Proofs.Token.Listing
import StackC.Proofs.Token.Pieces

/-! Blanks keep the texts on both sides of them apart: no lexeme, no fault and no number reaches
over one. -/
namespace StackC.Token

/-- The outcome of a scan so many bytes further on. -/
def shifted (n : Nat) : Except SourceError (List Token) → Except SourceError (List Token)
  | .ok toks => .ok (toks.map (moved n))
  | .error e => .error { e with offset := e.offset + n }

/-- The outcome for two texts from those of each, if the second begins at offset `n`. -/
def joined (n : Nat) : Except SourceError (List Token) → Except SourceError (List Token) →
    Except SourceError (List Token)
  | .error e, _ => .error e
  | .ok _, .error e => .error { e with offset := e.offset + n }
  | .ok ts, .ok us => .ok (beforeEnd ts ++ us.map (moved n))

private theorem joined_eq (n : Nat) (x y : Except SourceError (List Token)) :
    joined n x y = x >>= fun ts => (shifted n y).map (beforeEnd ts ++ ·) := by
  cases x with
  | error e => rfl
  | ok ts => cases y <;> rfl

section Scan

variable {start : Nat} {src more : Bytes}

/-- A blank carries on with no lexeme. -/
theorem stops_of_isBlank : ∀ c, Text.isBlank c →
    Text.isDigit c = false ∧ isIdentPart c = false ∧ (some c == some (byte '=')) = false :=
  forall_byte (by decide +kernel)

/-- What stands behind a blank makes no difference to the lexeme before it or to the lack of one. -/
theorem lexeme_append {b : UInt8} (hm : ∀ c ∈ more.head?, Text.isBlank c) :
    lexeme b (src ++ more) = lexeme b src := by
  have run {p : UInt8 → Bool} (hp : ∀ c, Text.isBlank c → p c = false) :
      (src ++ more).takeWhile p = src.takeWhile p := by
    have hnil : more.takeWhile p = [] := by
      cases more with
      | nil => rfl
      | cons c more => simp [hp c (hm c rfl)]
    rw [List.takeWhile_append, hnil, List.append_nil]
    split
    · next hall => exact (List.takeWhile_prefix p).eq_of_length hall |>.symm
    · rfl
  have pair : ((src ++ more).head? == some (byte '=')) = (src.head? == some (byte '=')) := by
    cases src with
    | cons c src => rfl
    | nil =>
      cases more with
      | nil => rfl
      | cons c more => exact (stops_of_isBlank c (hm c rfl)).2.2
  have digits := run fun c hc => (stops_of_isBlank c hc).1
  have parts := run fun c hc => (stops_of_isBlank c hc).2.1
  simp only [lexeme, digits, parts, pair]

/-- Behind a text the scan goes on with what begins with a blank, unless it has stopped before. -/
theorem scanFrom_append (hm : ∀ c ∈ more.head?, Text.isBlank c) :
    scanFrom start (src ++ more) = scanFrom start src >>= fun toks =>
      (scanFrom (start + src.length) more).map (beforeEnd toks ++ ·) := by
  fun_induction scanFrom start src with
  | case1 start =>
    have hend : beforeEnd [eof start] = [] := rfl
    rw [List.nil_append, List.length_nil, Nat.add_zero, Outcome.ok_bind, hend]
    cases scanFrom start more <;> rfl
  | case2 start b src hb ih =>
    rw [List.cons_append, scanFrom, if_pos hb, ih, List.length_cons, Nat.add_comm src.length,
      Nat.add_assoc]
  | case3 start b src hb cause hl =>
    rw [List.cons_append, scanFrom, if_neg hb, lexeme_append hm, hl]
    rfl
  | case4 start b src hb kind text val hl ih =>
    obtain ⟨tail, rfl⟩ := isPrefix_of_lexeme hl
    have hkind : kind ≠ .eof := (scanned_of_lexeme hl start).notEnd
    have hlen : start + text.length + 1 + tail.length = start + (b :: (text ++ tail)).length := by
      simp only [List.length_cons, List.length_append]
      omega
    rw [List.drop_left] at ih ⊢
    rw [hlen] at ih
    rw [List.cons_append, scanFrom, if_neg hb, lexeme_append hm, hl, List.append_assoc]
    simp only [List.drop_left]
    rw [ih]
    cases scanFrom (start + text.length + 1) tail with
    | error e => rfl
    | ok toks =>
      have hcons : beforeEnd ({ kind, pos := start, lit := b :: text, val } :: toks) =
          { kind, pos := start, lit := b :: text, val } :: beforeEnd toks := by
        simp [beforeEnd, hkind]
      simp only [Outcome.ok_bind, Outcome.pure_eq, hcons]
      cases scanFrom (start + (b :: (text ++ tail)).length) more <;> rfl

/-- Blanks are only counted. -/
theorem scanFrom_blanks {w : Bytes} (hw : ∀ c ∈ w, Text.isBlank c) :
    scanFrom start (w ++ src) = scanFrom (start + w.length) src := by
  induction w generalizing start with
  | nil => rfl
  | cons c w ih =>
    rw [List.forall_mem_cons] at hw
    rw [List.cons_append, scanFrom, if_pos hw.1, ih hw.2, List.length_cons, Nat.add_comm w.length,
      Nat.add_assoc]

/-- A text at another offset has the same tokens there, or the same fault. -/
theorem scanFrom_add (start n : Nat) (src : Bytes) :
    scanFrom (start + n) src = shifted n (scanFrom start src) := by
  fun_induction scanFrom start src with
  | case1 start => simp [scanFrom, shifted, moved, eof]
  | case2 start b src hb ih => rw [scanFrom, if_pos hb, Nat.add_right_comm, ih]
  | case3 start b src hb cause hl =>
    rw [scanFrom, if_neg hb, hl]
    simp [shifted]
  | case4 start b src hb kind text val hl ih =>
    have hpos : start + n + text.length + 1 = start + text.length + 1 + n := by omega
    rw [scanFrom, if_neg hb, hl]
    simp only [hpos, ih]
    cases scanFrom (start + text.length + 1) (src.drop text.length) with
    | error e => rfl
    | ok toks => simp [shifted, moved]

theorem scan_append_blanks {w : Bytes} (hne : w ≠ []) (hw : ∀ c ∈ w, Text.isBlank c) (a b : Bytes) :
    scan (a ++ w ++ b) = joined (a ++ w).length (scan a) (scan b) := by
  have hhead : ∀ c ∈ (w ++ b).head?, Text.isBlank c := by
    cases w with
    | nil => exact absurd rfl hne
    | cons c w =>
      rintro _ ⟨⟩
      exact hw c List.mem_cons_self
  rw [joined_eq, List.append_assoc, scan, scan, scan, scanFrom_append hhead, scanFrom_blanks hw,
    Nat.add_assoc, ← List.length_append, scanFrom_add]

end Scan

section Literals

/-- The token is one that some text is scanned to. -/
def Occurs (t : Token) : Prop := ∃ src toks, scan src = .ok toks ∧ t ∈ toks

/-- Such a token is an end mark or a lexeme. -/
theorem Occurs.cases {t : Token} (h : Occurs t) :
    t.kind = .eof ∧ t.lit = [] ∨ t.kind ≠ .eof ∧ Lexeme t.kind t.lit t.val [] := by
  obtain ⟨src, toks, hs, ht⟩ := h
  obtain ⟨body, hcut, rfl⟩ := cuts_of_scan hs
  rcases List.mem_append.mp ht with ht | ht
  · obtain ⟨before, after, -, -, hl⟩ := hcut.exists_lexeme t ht
    have alone : Lexeme t.kind t.lit t.val [] := hl.shorten
    exact .inr ⟨hl.facts.1, alone⟩
  · rw [List.mem_singleton.mp ht]
    exact .inl ⟨rfl, rfl⟩

/-- The text is scanned to tokens with these spellings and an end mark. -/
def Spells (src : Bytes) (toks : List Token) : Prop :=
  ∃ out, scan src = .ok out ∧ out.map spelling = toks.map spelling ++ [spelling (eof 0)]

theorem Spells.beforeEnd {src : Bytes} {toks : List Token} (h : Spells src toks) :
    ∃ out, scan src = .ok out ∧ (beforeEnd out).map spelling = toks.map spelling := by
  obtain ⟨out, hs, hout⟩ := h
  obtain ⟨stop, he, -⟩ := scan_eq_ok hs
  rw [he, List.map_append] at hout
  exact ⟨out, hs, List.append_cancel_right hout⟩

/-- A token alone is spelled by its literal. An end mark has none. -/
theorem spells_lit {t : Token} (h : Occurs t) : Spells t.lit ([t].filter (·.kind != .eof)) := by
  rcases h.cases with ⟨hk, hl⟩ | ⟨hk, hl⟩
  · refine ⟨[eof 0], ?_, by simp [hk]⟩
    rw [hl, scan, scanFrom]
    rfl
  · have hcut : Cuts 0 (t.lit ++ []) [{ t with pos := 0 }] [] := .lexeme hl .done
    rw [List.append_nil] at hcut
    refine ⟨_, scan_of_cuts hcut, ?_⟩
    simp [hk, spelling, eof]

theorem Spells.append {a w b : Bytes} {ts us : List Token} (ha : Spells a ts) (hne : w ≠ [])
    (hw : ∀ c ∈ w, Text.isBlank c) (hb : Spells b us) : Spells (a ++ w ++ b) (ts ++ us) := by
  obtain ⟨front, hfront, hts⟩ := ha.beforeEnd
  obtain ⟨back, hback, hus⟩ := hb
  refine ⟨_, by rw [scan_append_blanks hne hw, hfront, hback, joined], ?_⟩
  rw [List.map_append, hts, List.map_map, List.map_append, List.append_assoc, ← hus]
  rfl

/-- The literals of tokens with a space between neighbours spell these tokens. -/
theorem spells_join {toks : List Token} (h : ∀ t ∈ toks, Occurs t) :
    Spells (Text.join (ascii " ") (toks.map lit)) (toks.filter (·.kind != .eof)) := by
  induction toks with
  | nil =>
    refine ⟨[eof 0], ?_, rfl⟩
    rw [scan, List.map_nil, Text.join, scanFrom]
    rfl
  | cons t rest ih =>
    rw [List.forall_mem_cons] at h
    have first := spells_lit h.1
    cases rest with
    | nil => exact first
    | cons u rest =>
      have space : ∀ c ∈ ascii " ", Text.isBlank c := List.forall_mem_singleton.mpr rfl
      have all := first.append (by decide) space (ih h.2)
      rwa [← List.filter_append, List.singleton_append] at all

end Literals

/-- Blanks between two texts keep them apart: the scan fails as that of the first text does, or else
as that of the second, and otherwise has the tokens of both. So tokens that are written one after
the other with spaces between them are scanned to the same tokens. -/
theorem scan_blanks_between :
    (∀ a w b : Bytes, w ≠ [] → (∀ c ∈ w, Text.isBlank c) →
      scan (a ++ w ++ b) = joined (a ++ w).length (scan a) (scan b)) ∧
    (∀ toks : List Token, (∀ t ∈ toks, Occurs t) →
      ∃ out, scan (Text.join (ascii " ") (toks.map lit)) = .ok out ∧
        out.map spelling = (toks.filter (·.kind != .eof)).map spelling ++ [spelling (eof 0)]) ∧
    ∀ (src : Bytes) (toks : List Token), scan src = .ok toks →
      ∃ out, scan (Text.join (ascii " ") (toks.map lit)) = .ok out ∧
        out.map spelling = toks.map spelling := by
  refine ⟨fun a w b hne hw => scan_append_blanks hne hw a b, fun toks h => spells_join h, ?_⟩
  intro src toks h
  obtain ⟨out, hout, hs⟩ := spells_join fun t ht => ⟨src, toks, h, ht⟩
  obtain ⟨body, hcut, rfl⟩ := cuts_of_scan h
  have hbody : (body ++ [eof src.length]).filter (·.kind != .eof) = body := by
    have hall : ∀ t ∈ body, t.kind != .eof := fun t ht => by simpa using hcut.notEnd t ht
    rw [List.filter_append, List.filter_eq_self.mpr hall]
    exact List.append_nil body
  refine ⟨out, hout, ?_⟩
  rw [hs, hbody, List.map_append]
  rfl

/-- A lexeme of two bytes falls apart at a blank. The literals of its tokens are scanned as before,
in whatever order they are written. -/
theorem scan_blanks_between_equals :
    scan (ascii "a<" ++ ascii "\n" ++ ascii "=12") =
        joined 3 (scan (ascii "a<")) (scan (ascii "=12")) ∧
      (scan (ascii "a<\n=12")).map (·.map Token.lit) =
        .ok [ascii "a", ascii "<", ascii "=", ascii "12", []] ∧
      (∃ out, scan (ascii "a < = 12 ") = .ok out ∧ out.map spelling =
        [(.ident, ascii "a", 0), (.punct, ascii "<", 0), (.punct, ascii "=", 0),
          (.num, ascii "12", 12), (.eof, [], 0)]) ∧
      (∃ out, scan (ascii " 12 = < a") = .ok out ∧ out.map spelling =
        [(.num, ascii "12", 12), (.punct, ascii "=", 0), (.punct, ascii "<", 0),
          (.ident, ascii "a", 0), (.eof, [], 0)]) ∧
      scan (ascii "!" ++ ascii " " ++ ascii "=") = .error ⟨.invalidToken, 0⟩ := by
  obtain ⟨between, written, literals⟩ := scan_blanks_between
  have hsrc : scan (ascii "a<\n=12") = .ok [⟨.ident, 0, ascii "a", 0⟩, ⟨.punct, 1, ascii "<", 0⟩,
      ⟨.punct, 3, ascii "=", 0⟩, ⟨.num, 4, ascii "12", 12⟩, .eof 6] := by decide +kernel
  have hbang : scan (ascii "!") = .error ⟨.invalidToken, 0⟩ := by decide +kernel
  have newline : ∀ c ∈ ascii "\n", Text.isBlank c := List.forall_mem_singleton.mpr rfl
  have space : ∀ c ∈ ascii " ", Text.isBlank c := List.forall_mem_singleton.mpr rfl
  refine ⟨between _ _ _ (by decide) newline, by rw [hsrc]; rfl, literals _ _ hsrc,
    written _ fun t ht => ⟨_, _, hsrc, List.mem_reverse.mp ht⟩, ?_⟩
  rw [between _ _ _ (by decide) space, hbang, joined]

end StackC.Token
