import StackC.Proofs.Token.Lexemes

/-! A text may be cut between any two of its tokens, each part has the tokens that it had in the
whole, and a text behind a blank has those that it has on its own. -/
namespace StackC.Token

def moved (n : Int) (t : Token) : Token := { t with pos := t.pos + n }

/-- More bytes behind a lexeme leave it as it is if they begin with a blank. -/
theorem Lexeme.lengthen {kind : TokenKind} {text src more : Bytes} {val : Int}
    (h : Lexeme kind text val src) (hm : ∀ b ∈ more.head?, Text.isBlank b) :
    Lexeme kind text val (src ++ more) := by
  have hh {p : UInt8 → Bool} (hp : ∀ b, Text.isBlank b → p b = false)
      (h : ∀ b ∈ src.head?, p b = false) : ∀ b ∈ (src ++ more).head?, p b = false := by
    intro b hb
    cases src with
    | nil => exact hp b (hm b hb)
    | cons c src => exact h b hb
  cases h with
  | number notEmpty areDigits longest small =>
    exact .number notEmpty areDigits (hh (forall_byte (by decide +kernel)) longest) small
  | word starts goesOn longest sort =>
    exact .word starts goesOn (hh (forall_byte (by decide +kernel)) longest) sort
  | punctuator isOne longest =>
    refine .punctuator isOne fun p hp hpre => longest p hp ?_
    cases more with
    | nil => rwa [List.append_nil] at hpre
    | cons b more =>
      -- No punctuator has the blank in it, so one that begins the text ends before the blank.
      have hplain : ∀ p ∈ punctuators, ∀ b ∈ p, Text.isBlank b = false := by decide +kernel
      have hb : b ∉ p := fun hb => absurd (hm b rfl) (by simp [hplain p hp b hb])
      have hall : text ++ src ++ [b] <+: text ++ (src ++ b :: more) := ⟨more, by simp⟩
      rcases List.prefix_or_prefix_of_prefix hpre hall with hpre | hpre
      · rcases List.prefix_concat_iff.mp hpre with rfl | hpre
        · exact absurd (by simp) hb
        · exact hpre
      · exact absurd (hpre.subset (by simp)) hb

section Cuts

variable {start : Nat} {src rest : Bytes} {body : List Token}

/-- A text at another offset is cut in the same way. -/
theorem Cuts.moved (h : Cuts start src body rest) (start' : Nat) :
    Cuts start' src (body.map (Token.moved (start' - start))) rest := by
  induction h generalizing start' with
  | done => exact .done
  | @blank start b src rest body isBlank more ih =>
    have hd : ((start' + 1 : Nat) : Int) - (start + 1 : Nat) = start' - start := by omega
    rw [← hd]
    exact .blank isBlank (ih (start' + 1))
  | @lexeme start kind text src rest val body first more ih =>
    have hd : ((start' + text.length : Nat) : Int) - (start + text.length : Nat) =
        start' - start := by omega
    have hp : (start : Int) + (start' - start) = start' := by omega
    rw [List.map_cons, Token.moved, hp, ← hd]
    exact .lexeme first (ih (start' + text.length))

/-- The tokens of a text are cut off two parts of it. The first ends where the second begins. -/
theorem Cuts.split {before after : List Token} (h : Cuts start src (before ++ after) rest) :
    ∃ front back, src = front ++ back ∧ Cuts start front before [] ∧
      Cuts (start + front.length) back after rest := by
  generalize hb : before ++ after = body at h
  induction h generalizing before with
  | done =>
    obtain ⟨rfl, rfl⟩ := List.append_eq_nil_iff.mp hb
    exact ⟨[], _, rfl, .done, .done⟩
  | @blank start b src rest body isBlank more ih =>
    obtain ⟨front, back, rfl, hfront, hback⟩ := ih hb
    refine ⟨b :: front, back, rfl, .blank isBlank hfront, ?_⟩
    rwa [List.length_cons, Nat.add_comm front.length, ← Nat.add_assoc]
  | @lexeme start kind text src rest val body first more ih =>
    cases before with
    | nil =>
      rw [List.nil_append] at hb
      subst hb
      exact ⟨[], _, rfl, .done, .lexeme first more⟩
    | cons t before =>
      rw [List.cons_append, List.cons_eq_cons] at hb
      obtain ⟨rfl, hb⟩ := hb
      obtain ⟨front, back, rfl, hfront, hback⟩ := ih hb
      refine ⟨text ++ front, back, by simp, .lexeme first.shorten hfront, ?_⟩
      rwa [List.length_append, ← Nat.add_assoc]

/-- Two texts with a blank between them have the tokens of both. -/
theorem Cuts.append {more : Bytes} {others : List Token} (h : Cuts start src body [])
    (hm : ∀ b ∈ more.head?, Text.isBlank b) (hmore : Cuts (start + src.length) more others rest) :
    Cuts start (src ++ more) (body ++ others) rest := by
  generalize hr : ([] : Bytes) = none' at h
  induction h with
  | done =>
    subst hr
    exact hmore
  | @blank start b src none' body isBlank _ ih =>
    refine .blank isBlank (ih ?_ hr)
    rwa [List.length_cons, Nat.add_comm src.length, ← Nat.add_assoc] at hmore
  | @lexeme start kind text src none' val body first _ ih =>
    rw [List.append_assoc]
    refine .lexeme (first.lengthen hm) (ih ?_ hr)
    rwa [List.length_append, ← Nat.add_assoc] at hmore

/-- No end mark is cut off a text. -/
theorem Cuts.notEnd (h : Cuts start src body rest) : ∀ t ∈ body, t.kind ≠ .eof := by
  intro t ht
  obtain ⟨before, after, -, -, hl⟩ := h.exists_lexeme t ht
  exact hl.facts.1

end Cuts

theorem cuts_of_scan {src : Bytes} {toks : List Token} (h : scan src = .ok toks) :
    ∃ body, Cuts 0 src body [] ∧ toks = body ++ [eof src.length] := by
  obtain ⟨body, rest, hcut, rfl | ⟨b, tail, cause, rfl, hb, hl⟩⟩ := exists_cuts 0 src
  · rw [scan_of_cuts hcut] at h
    exact ⟨body, hcut, (Except.ok.inj h).symm⟩
  · obtain ⟨before, -, -, hscan⟩ := hcut.scanFrom
    rw [scan, hscan, scanFrom, hb, if_neg Bool.false_ne_true, hl] at h
    cases h

end StackC.Token
