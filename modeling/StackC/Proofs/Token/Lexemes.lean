import StackC.Proofs.Text.Plain
import StackC.Proofs.Token.Places

/-! Lexemes as a reader of the language knows them, and the scan of a text as the way to cut it into
blanks and longest lexemes from the left. -/
namespace StackC.Token

def decimalValue : Bytes → Nat
  | [] => 0
  | d :: ds => (d.toNat - (byte '0').toNat) * Nat.pow 10 ds.length + decimalValue ds

def keywordTexts : List Bytes := ["return", "if", "else", "for", "while", "int"].map ascii

def punctuators : List Bytes :=
  ["==", "!=", "<=", ">=", "+", "-", "*", "/", "&", "(", ")", "\x7b", "\x7d", ";", ",", "=", "<",
    ">"].map ascii

/-- A lexeme with its kind, text and value, before the rest of a source. It is the longest one that
stands there. -/
inductive Lexeme : TokenKind → Bytes → Int → Bytes → Prop
  | number {digits rest : Bytes} (notEmpty : digits ≠ []) (areDigits : ∀ b ∈ digits, Text.isDigit b)
      (longest : ∀ b ∈ rest.head?, Text.isDigit b = false)
      (small : decimalValue digits ≤ 2147483647) :
      Lexeme .num digits (decimalValue digits) rest
  | word {kind : TokenKind} {b : UInt8} {more rest : Bytes} (starts : isIdentStart b)
      (goesOn : ∀ c ∈ more, isIdentPart c) (longest : ∀ c ∈ rest.head?, isIdentPart c = false)
      (sort : kind = .keyword ∧ b :: more ∈ keywordTexts ∨
        kind = .ident ∧ b :: more ∉ keywordTexts) :
      Lexeme kind (b :: more) 0 rest
  | punctuator {text rest : Bytes} (isOne : text ∈ punctuators)
      (longest : ∀ p ∈ punctuators, p <+: text ++ rest → p.length ≤ text.length) :
      Lexeme .punct text 0 rest

/-- From an offset on, blanks and lexemes are cut off a text one after the other, up to a rest. -/
inductive Cuts : Nat → Bytes → List Token → Bytes → Prop
  | done {start : Nat} {rest : Bytes} : Cuts start rest [] rest
  | blank {start : Nat} {b : UInt8} {src rest : Bytes} {body : List Token}
      (isBlank : Text.isBlank b) (more : Cuts (start + 1) src body rest) :
      Cuts start (b :: src) body rest
  | lexeme {start : Nat} {kind : TokenKind} {text src rest : Bytes} {val : Int} {body : List Token}
      (first : Lexeme kind text val src) (more : Cuts (start + text.length) src body rest) :
      Cuts start (text ++ src) ({ kind, pos := start, lit := text, val } :: body) rest

section Lexeme

theorem keywords_eq : keywordTexts = keywords := rfl

private theorem foldl_digits (digits : Bytes) (v : Nat) :
    digits.foldl (fun v d => 10 * v + (d.toNat - 48)) v =
      v * Nat.pow 10 digits.length + decimalValue digits := by
  induction digits generalizing v with
  | nil => simp [decimalValue]
  | cons d ds ih =>
    have hp : Nat.pow 10 (ds.length + 1) = Nat.pow 10 ds.length * 10 := rfl
    have hz : (byte '0').toNat = 48 := rfl
    rw [List.foldl_cons, ih, decimalValue, List.length_cons, hp, hz, Nat.add_mul, Nat.mul_comm 10 v,
      Nat.mul_assoc, Nat.mul_comm 10, Nat.add_assoc]

theorem digitsValue_eq (digits : Bytes) : Text.digitsValue digits = decimalValue digits := by
  rw [Text.digitsValue, foldl_digits, Nat.zero_mul, Nat.zero_add]

/-- A run goes up to the first byte that does not belong to it. -/
theorem takeWhile_append_stop {p : UInt8 → Bool} {run rest : Bytes} (hrun : ∀ b ∈ run, p b)
    (hrest : ∀ b ∈ rest.head?, p b = false) : (run ++ rest).takeWhile p = run := by
  rw [List.takeWhile_append_of_pos hrun]
  cases rest with
  | nil => simp
  | cons b rest => simp [hrest b rfl]

/-- A run with the rest behind it. -/
theorem exists_takeWhile (p : UInt8 → Bool) (src : Bytes) :
    ∃ rest, src = src.takeWhile p ++ rest ∧ (∀ b ∈ src.takeWhile p, p b) ∧
      ∀ b ∈ rest.head?, p b = false := by
  refine ⟨src.dropWhile p, List.takeWhile_append_dropWhile.symm,
    List.all_eq_true.mp List.all_takeWhile, fun b hb => ?_⟩
  have hn := List.head?_dropWhile_not p src
  rw [Option.mem_def.mp hb] at hn
  simpa using hn

theorem pair_or_single : ∀ p ∈ punctuators,
    (∃ b ∈ pairStarts, p = [b, byte '=']) ∨ ∃ b ∈ singles, p = [b] := by decide +kernel

theorem pair_mem : ∀ b ∈ pairStarts, [b, byte '='] ∈ punctuators := by decide +kernel

private theorem single_mem : ∀ b ∈ singles, [b] ∈ punctuators := by decide +kernel

/-- No punctuator begins like a number or a word. -/
theorem plain_of_punctuator {b : UInt8} (h : b ∈ pairStarts ∨ b ∈ singles) :
    Text.isDigit b = false ∧ isIdentStart b = false := by
  have hd : ∀ b ∈ pairStarts ++ singles, Text.isDigit b = false ∧ isIdentStart b = false := by
    decide +kernel
  exact hd b (List.mem_append.mpr h)

def isPair (b : UInt8) (rest : Bytes) : Bool :=
  pairStarts.contains b && rest.head? == some (byte '=')

theorem isPair_iff {b : UInt8} {rest : Bytes} :
    isPair b rest ↔ b ∈ pairStarts ∧ ∃ tail, rest = byte '=' :: tail := by
  simp [isPair, List.head?_eq_some_iff]

private theorem longest_single {b : UInt8} {rest : Bytes} (h : isPair b rest = false) :
    ∀ p ∈ punctuators, p <+: [b] ++ rest → p.length ≤ [b].length := by
  intro p hp hpre
  rcases pair_or_single p hp with ⟨c, hc, rfl⟩ | ⟨c, -, rfl⟩
  · obtain ⟨tail, ht⟩ := hpre
    simp only [List.cons_append, List.nil_append, List.cons.injEq] at ht
    obtain ⟨rfl, ht⟩ := ht
    rw [isPair_iff.mpr ⟨hc, tail, ht.symm⟩] at h
    cases h
  · simp

/-- What is cut off is a lexeme before what is left. -/
theorem lexeme_of_ok {b : UInt8} {src more : Bytes} {kind : TokenKind} {val : Int}
    (h : lexeme b src = .ok (kind, more, val)) :
    ∃ rest, src = more ++ rest ∧ Lexeme kind (b :: more) val rest := by
  unfold lexeme at h
  split at h
  case isTrue hb =>
    simp only at h
    split at h
    case isTrue hv =>
      cases h
      obtain ⟨rest, hs, hrun, hrest⟩ := exists_takeWhile Text.isDigit src
      rw [digitsValue_eq] at hv ⊢
      exact ⟨rest, hs, .number (by simp) (List.forall_mem_cons.mpr ⟨hb, hrun⟩) hrest hv⟩
    case isFalse => cases h
  split at h
  case isTrue hb =>
    cases h
    obtain ⟨rest, hs, hrun, hrest⟩ := exists_takeWhile isIdentPart src
    refine ⟨rest, hs, .word hb hrun hrest ?_⟩
    by_cases hk : b :: src.takeWhile isIdentPart ∈ keywords
    · exact .inl ⟨if_pos (List.contains_iff_mem.mpr hk), hk⟩
    · exact .inr ⟨if_neg (mt List.contains_iff_mem.mp hk), hk⟩
  split at h
  case isTrue hb =>
    cases h
    obtain ⟨hstart, tail, rfl⟩ := isPair_iff.mp hb
    refine ⟨tail, rfl, .punctuator (pair_mem b hstart) fun p hp _ => ?_⟩
    have hlen : ∀ p ∈ punctuators, p.length ≤ 2 := by decide
    exact hlen p hp
  case isFalse hpair =>
    split at h
    case isTrue hb =>
      cases h
      refine ⟨src, rfl, .punctuator (single_mem b (List.contains_iff_mem.mp hb)) ?_⟩
      exact longest_single (Bool.not_eq_true _ ▸ hpair)
    case isFalse => cases h

/-- A lexeme is cut off. -/
theorem ok_of_lexeme {b : UInt8} {more rest : Bytes} {kind : TokenKind} {val : Int}
    (h : Lexeme kind (b :: more) val rest) : lexeme b (more ++ rest) = .ok (kind, more, val) := by
  generalize ht : b :: more = text at h
  unfold lexeme
  cases h with
  | number notEmpty areDigits longest small =>
    subst ht
    rw [List.forall_mem_cons] at areDigits
    rw [if_pos areDigits.1]
    simp only [takeWhile_append_stop areDigits.2 longest, digitsValue_eq]
    exact if_pos small
  | word starts goesOn longest sort =>
    cases ht
    have hd : ∀ b, isIdentStart b → Text.isDigit b = false := forall_byte (by decide +kernel)
    rw [hd b starts, if_neg Bool.false_ne_true, if_pos starts]
    simp only [takeWhile_append_stop goesOn longest]
    rcases sort with ⟨rfl, hk⟩ | ⟨rfl, hk⟩
    · rw [← keywords_eq, if_pos (List.contains_iff_mem.mpr hk)]
    · rw [← keywords_eq, if_neg (mt List.contains_iff_mem.mp hk)]
  | punctuator isOne longest =>
    subst ht
    rcases pair_or_single _ isOne with ⟨c, hc, he⟩ | ⟨c, hc, he⟩
    · cases he
      obtain ⟨hd, hi⟩ := plain_of_punctuator (.inl hc)
      have hp : isPair b ([byte '='] ++ rest) := isPair_iff.mpr ⟨hc, rest, rfl⟩
      rw [isPair] at hp
      rw [hd, hi, if_neg Bool.false_ne_true, if_neg Bool.false_ne_true, if_pos hp]
    · cases he
      obtain ⟨hd, hi⟩ := plain_of_punctuator (.inr hc)
      have hp : isPair b ([] ++ rest) = false := by
        rw [← Bool.not_eq_true]
        intro hp
        obtain ⟨hb, tail, rfl⟩ := isPair_iff.mp hp
        exact absurd (longest _ (pair_mem b hb) ⟨tail, rfl⟩) (by simp)
      rw [isPair] at hp
      rw [hd, hi, if_neg Bool.false_ne_true, if_neg Bool.false_ne_true, hp,
        if_neg Bool.false_ne_true, if_pos (List.contains_iff_mem.mpr hc)]

theorem Lexeme.exists_cons {kind : TokenKind} {text rest : Bytes} {val : Int}
    (h : Lexeme kind text val rest) : ∃ b more, text = b :: more := by
  cases h with
  | number notEmpty areDigits longest small => exact List.exists_cons_of_ne_nil notEmpty
  | word starts goesOn longest sort => exact ⟨_, _, rfl⟩
  | punctuator isOne longest =>
    have hne : ∀ p ∈ punctuators, p ≠ [] := by decide
    exact List.exists_cons_of_ne_nil (hne text isOne)

theorem Lexeme.notBlank {kind : TokenKind} {b : UInt8} {more rest : Bytes} {val : Int}
    (h : Lexeme kind (b :: more) val rest) : Text.isBlank b = false := by
  have hd : ∀ b, Text.isDigit b ∨ isIdentStart b → Text.isBlank b = false :=
    forall_byte (by decide +kernel)
  cases h with
  | number notEmpty areDigits longest small => exact hd b (.inl (areDigits b List.mem_cons_self))
  | word starts goesOn longest sort => exact hd b (.inr starts)
  | punctuator isOne longest =>
    have hp : ∀ p ∈ punctuators, ∀ b ∈ p, Text.isBlank b = false := by decide +kernel
    exact hp _ isOne b List.mem_cons_self

/-- What its text says about the kind and value of a lexeme. -/
theorem Lexeme.facts {kind : TokenKind} {text rest : Bytes} {val : Int}
    (h : Lexeme kind text val rest) : kind ≠ .eof ∧ (kind = .keyword ↔ text ∈ keywordTexts) ∧
      (kind = .num → val = decimalValue text) := by
  cases h with
  | number notEmpty areDigits longest small =>
    have hk : ∀ k ∈ keywordTexts, ∃ b ∈ k, Text.isDigit b = false := by decide
    refine ⟨by simp, ⟨by simp, fun hm => ?_⟩, fun _ => rfl⟩
    obtain ⟨b, hb, hd⟩ := hk text hm
    rw [areDigits b hb] at hd
    cases hd
  | word starts goesOn longest sort =>
    rcases sort with ⟨rfl, hk⟩ | ⟨rfl, hk⟩
    · exact ⟨by simp, ⟨fun _ => hk, fun _ => rfl⟩, by simp⟩
    · exact ⟨by simp, ⟨by simp, fun hm => absurd hm hk⟩, by simp⟩
  | punctuator isOne longest =>
    have hp : ∀ k ∈ keywordTexts, k ∉ punctuators := by decide
    exact ⟨by simp, ⟨by simp, fun hm => absurd isOne (hp text hm)⟩, by simp⟩

/-- Fewer bytes behind a lexeme leave it as it is. -/
theorem Lexeme.shorten {kind : TokenKind} {text src rest : Bytes} {val : Int}
    (h : Lexeme kind text val (src ++ rest)) : Lexeme kind text val src := by
  have hh {p : UInt8 → Prop} (h : ∀ b ∈ (src ++ rest).head?, p b) : ∀ b ∈ src.head?, p b := by
    intro b hb
    exact h b (by simp [Option.mem_def.mp hb])
  cases h with
  | number notEmpty areDigits longest small => exact .number notEmpty areDigits (hh longest) small
  | word starts goesOn longest sort => exact .word starts goesOn (hh longest) sort
  | punctuator isOne longest =>
    refine .punctuator isOne fun p hp hpre => longest p hp ?_
    rw [← List.append_assoc]
    exact hpre.trans (List.prefix_append _ _)

theorem none_of_error {b : UInt8} {src : Bytes} {cause : Cause} (h : lexeme b src = .error cause)
    {kind : TokenKind} {text rest : Bytes} {val : Int} (hs : b :: src = text ++ rest) :
    ¬Lexeme kind text val rest := by
  intro hl
  obtain ⟨c, more, rfl⟩ := hl.exists_cons
  rw [List.cons_append, List.cons_eq_cons] at hs
  rw [hs.1, hs.2, ok_of_lexeme hl] at h
  cases h

private theorem message_of_error {b : UInt8} {src : Bytes} {cause : Cause}
    (h : lexeme b src = .error cause) :
    (cause.message = ascii "number literal out of range" ↔ Text.isDigit b) ∧
      (cause.message = ascii "invalid token" ↔ Text.isDigit b = false) := by
  unfold lexeme at h
  split at h
  case isTrue hb =>
    simp only at h
    split at h
    · cases h
    · cases h
      rw [hb]
      decide
  case isFalse hb =>
    rw [Bool.not_eq_true] at hb
    split at h
    · cases h
    split at h
    · cases h
    split at h
    · cases h
    · cases h
      rw [hb]
      decide

end Lexeme

section Cuts

variable {start : Nat} {src rest : Bytes} {body : List Token}

/-- The scan of a text goes on behind what is cut off it. -/
theorem Cuts.scanFrom (h : Cuts start src body rest) :
    ∃ before, src = before ++ rest ∧ Cuts start before body [] ∧
      Token.scanFrom start src = (Token.scanFrom (start + before.length) rest).map (body ++ ·) := by
  induction h with
  | @done start rest =>
    refine ⟨[], rfl, .done, ?_⟩
    cases Token.scanFrom start rest <;> simp [Except.map]
  | @blank start b src rest body isBlank more ih =>
    obtain ⟨before, rfl, hcut, hscan⟩ := ih
    refine ⟨b :: before, rfl, .blank isBlank hcut, ?_⟩
    rw [Token.scanFrom, if_pos isBlank, hscan, List.length_cons, Nat.add_assoc, Nat.add_comm 1]
  | @lexeme start kind text src rest val body first more ih =>
    obtain ⟨before, rfl, hcut, hscan⟩ := ih
    refine ⟨text ++ before, by simp, .lexeme first.shorten hcut, ?_⟩
    obtain ⟨b, tail, rfl⟩ := first.exists_cons
    have hpos : start + tail.length + 1 + before.length =
        start + (b :: tail ++ before).length := by
      simp only [List.length_append, List.length_cons]
      omega
    rw [List.length_cons, ← Nat.add_assoc, hpos] at hscan
    rw [List.cons_append, Token.scanFrom, first.notBlank, if_neg Bool.false_ne_true,
      ok_of_lexeme first]
    simp only [List.drop_left]
    rw [hscan]
    cases Token.scanFrom (start + (b :: tail ++ before).length) rest <;> rfl

/-- A text is cut up to its end, or up to a byte that no lexeme begins with. -/
theorem exists_cuts (start : Nat) (src : Bytes) :
    ∃ body rest, Cuts start src body rest ∧ (rest = [] ∨
      ∃ b tail cause, rest = b :: tail ∧ Text.isBlank b = false ∧
        lexeme b tail = .error cause) := by
  fun_induction scanFrom start src with
  | case1 start => exact ⟨[], [], .done, .inl rfl⟩
  | case2 start b src hb ih =>
    obtain ⟨body, rest, hcut, hrest⟩ := ih
    exact ⟨body, rest, .blank hb hcut, hrest⟩
  | case3 start b src hb cause hl =>
    exact ⟨[], b :: src, .done, .inr ⟨b, src, cause, rfl, by simpa using hb, hl⟩⟩
  | case4 start b src hb kind more val hl ih =>
    obtain ⟨body, rest, hcut, hrest⟩ := ih
    obtain ⟨tail, rfl, hx⟩ := lexeme_of_ok hl
    rw [List.drop_left, Nat.add_assoc] at hcut
    exact ⟨_, rest, .lexeme hx hcut, hrest⟩

/-- Each token is a lexeme of the text at its place. -/
theorem Cuts.exists_lexeme (h : Cuts start src body rest) : ∀ t ∈ body,
    ∃ before after, src = before ++ t.lit ++ after ∧ t.pos = (start + before.length : Nat) ∧
      Lexeme t.kind t.lit t.val after := by
  induction h with
  | done => exact fun t ht => absurd ht List.not_mem_nil
  | @blank start b src rest body isBlank more ih =>
    intro t ht
    obtain ⟨before, after, rfl, hpos, hl⟩ := ih t ht
    refine ⟨b :: before, after, by simp, ?_, hl⟩
    rw [hpos, List.length_cons, Nat.add_assoc, Nat.add_comm 1]
  | @lexeme start kind text src rest val body first more ih =>
    intro t ht
    rcases List.mem_cons.mp ht with rfl | ht
    · exact ⟨[], src, rfl, rfl, first⟩
    · obtain ⟨before, after, rfl, hpos, hl⟩ := ih t ht
      refine ⟨text ++ before, after, by simp, ?_, hl⟩
      rw [hpos, List.length_append, Nat.add_assoc]

/-- Each token begins behind the one before it. -/
theorem Cuts.apart (h : Cuts start src body rest) :
    body.Pairwise fun (t u : Token) => t.pos + t.lit.length ≤ u.pos := by
  induction h with
  | done => exact .nil
  | blank isBlank more ih => exact ih
  | @lexeme start kind text src rest val body first more ih =>
    refine .cons (fun t ht => ?_) ih
    obtain ⟨before, after, -, hpos, -⟩ := more.exists_lexeme t ht
    simp only
    omega

/-- A byte that belongs to no token is a blank. -/
theorem Cuts.covers (h : Cuts start src body rest) (hrest : rest = []) :
    ∀ i b, src[i]? = some b → Text.isBlank b ∨
      ∃ t ∈ body, t.pos ≤ (start + i : Nat) ∧ (start + i : Nat) < t.pos + t.lit.length := by
  induction h with
  | done =>
    intro i b hi
    simp [hrest] at hi
  | @blank start c src rest body isBlank more ih =>
    intro i b hi
    cases i with
    | zero =>
      cases hi
      exact .inl isBlank
    | succ i =>
      have hstart : start + (i + 1) = start + 1 + i := by omega
      rw [hstart]
      exact ih hrest i b hi
  | @lexeme start kind text src rest val body first more ih =>
    intro i b hi
    by_cases hlt : i < text.length
    · exact .inr ⟨_, List.mem_cons_self, by simp only; omega, by simp only; omega⟩
    · rw [List.getElem?_append_right (Nat.le_of_not_lt hlt)] at hi
      rcases ih hrest _ b hi with hb | ⟨t, ht, hlo, hhi⟩
      · exact .inl hb
      · exact .inr ⟨t, List.mem_cons_of_mem _ ht, by omega, by omega⟩

end Cuts

/-- What the tokens of a text are. -/
structure Tokenizes (src : Bytes) (toks : List Token) : Prop where
  /-- They are the longest lexemes from the left, and one mark at the end of the text. -/
  cut : ∃ body, Cuts 0 src body [] ∧ toks = body ++ [eof src.length]
  increasing : toks.Pairwise (·.pos < ·.pos)
  /-- No byte belongs to two of them. -/
  apart : toks.Pairwise fun (t u : Token) => t.pos + t.lit.length ≤ u.pos
  text : ∀ t ∈ toks, ∃ n : Nat, t.pos = n ∧ (src.drop n).take t.lit.length = t.lit
  /-- What belongs to none of them is blank. -/
  gaps : ∀ (i : Nat) (b : UInt8), src[i]? = some b →
    Text.isBlank b ∨ ∃ t ∈ toks, t.pos ≤ i ∧ i < t.pos + t.lit.length
  value : ∀ t ∈ toks, t.kind = .num → t.val = decimalValue t.lit
  keyword : ∀ t ∈ toks, t.kind = .keyword ↔ t.lit ∈ keywordTexts
  ended : ∀ t ∈ toks, t.kind = .eof ↔ t = eof src.length

theorem scan_of_cuts {src : Bytes} {body : List Token} (h : Cuts 0 src body []) :
    scan src = .ok (body ++ [eof src.length]) := by
  obtain ⟨before, hs, -, hscan⟩ := h.scanFrom
  rw [List.append_nil] at hs
  rw [scan, hscan, ← hs, scanFrom, Outcome.map_ok, Nat.zero_add]

private theorem tokenizes_of_cuts {src : Bytes} {body : List Token} (h : Cuts 0 src body []) :
    Tokenizes src (body ++ [eof src.length]) := by
  have hbody := h.exists_lexeme
  have all {P : Token → Prop} (hb : ∀ t ∈ body, P t) (he : P (eof src.length)) :
      ∀ t ∈ body ++ [eof src.length], P t := by
    rw [List.forall_mem_append, List.forall_mem_singleton]
    exact ⟨hb, he⟩
  have kinds {t : Token} (ht : t ∈ body) :
      t.kind ≠ .eof ∧ (t.kind = .keyword ↔ t.lit ∈ keywordTexts) ∧
        (t.kind = .num → t.val = decimalValue t.lit) := by
    obtain ⟨before, after, -, -, hl⟩ := hbody t ht
    exact hl.facts
  constructor
  case cut => exact ⟨body, h, rfl⟩
  case increasing => exact (places_of_scan (scan_of_cuts h)).increasing
  case apart =>
    refine List.pairwise_append.mpr ⟨h.apart, List.pairwise_singleton _ _, fun t ht u hu => ?_⟩
    obtain ⟨before, after, hs, hpos, -⟩ := hbody t ht
    rw [List.mem_singleton.mp hu, hpos, hs]
    simp only [eof, List.length_append]
    omega
  case text =>
    refine all (fun t ht => ?_) ⟨src.length, rfl, by simp [eof]⟩
    obtain ⟨before, after, hs, hpos, -⟩ := hbody t ht
    rw [Nat.zero_add] at hpos
    exact ⟨before.length, hpos, by simp [hs]⟩
  case gaps =>
    intro i b hi
    rcases h.covers rfl i b hi with hb | ⟨t, ht, hlo, hhi⟩
    · exact .inl hb
    · rw [Nat.zero_add] at hlo hhi
      exact .inr ⟨t, List.mem_append_left _ ht, hlo, hhi⟩
  case value => exact all (fun t ht => (kinds ht).2.2) (by simp [eof])
  case keyword =>
    have hempty : ([] : Bytes) ∉ keywordTexts := by decide
    exact all (fun t ht => (kinds ht).2.1) ⟨by simp [eof], fun hm => absurd hm hempty⟩
  case ended =>
    refine all (fun t ht => ⟨fun hk => absurd hk (kinds ht).1, ?_⟩) (by simp [eof])
    rintro rfl
    rfl

/-- Why a text has no tokens: behind those cut off it stands a byte that no lexeme begins with. -/
inductive Refuses : Bytes → SourceError → Prop
  | intro {before rest : Bytes} {b : UInt8} {body : List Token} {cause : Cause}
      (cut : Cuts 0 (before ++ b :: rest) body (b :: rest))
      (scanned : scan before = .ok (body ++ [eof before.length]))
      (notBlank : Text.isBlank b = false)
      (noLexeme : ∀ kind text val after, b :: rest = text ++ after → ¬Lexeme kind text val after)
      (outOfRange : cause.message = ascii "number literal out of range" ↔ Text.isDigit b)
      (invalid : cause.message = ascii "invalid token" ↔ Text.isDigit b = false) :
      Refuses (before ++ b :: rest) { cause, offset := before.length }

/-- What a scan says of a text. -/
inductive Reports (src : Bytes) : Except SourceError (List Token) → Prop
  | ok {toks : List Token} (h : Tokenizes src toks) : Reports src (.ok toks)
  | error {e : SourceError} (h : Refuses src e) : Reports src (.error e)

/-- A text is scanned if and only if it can be cut into blanks and longest lexemes from the left.
Its tokens are then these lexemes; otherwise the scan fails at the first byte that none begins
with. -/
theorem scan_iff_cuts (src : Bytes) :
    ((∃ toks, scan src = .ok toks) ↔ ∃ body, Cuts 0 src body []) ∧ Reports src (scan src) := by
  obtain ⟨body, rest, hcut, rfl | ⟨b, tail, cause, rfl, hb, hl⟩⟩ := exists_cuts 0 src
  · have hscan := scan_of_cuts hcut
    rw [hscan]
    exact ⟨⟨fun _ => ⟨body, hcut⟩, fun _ => ⟨_, rfl⟩⟩, .ok (tokenizes_of_cuts hcut)⟩
  · obtain ⟨before, rfl, hbefore, hscan⟩ := hcut.scanFrom
    have herror : scan (before ++ b :: tail) = .error { cause, offset := before.length } := by
      rw [scan, hscan, scanFrom, hb, if_neg Bool.false_ne_true, hl, Nat.zero_add]
      rfl
    rw [herror]
    obtain ⟨houtOfRange, hinvalid⟩ := message_of_error hl
    refine ⟨⟨?_, ?_⟩, .error (.intro hcut (scan_of_cuts hbefore) hb ?_ houtOfRange hinvalid)⟩
    · rintro ⟨toks, h⟩
      cases h
    · rintro ⟨body', hcut'⟩
      rw [scan_of_cuts hcut'] at herror
      cases herror
    · exact fun kind text val after hs => none_of_error hl hs

end StackC.Token
